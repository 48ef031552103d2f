import Tnt.Containment
/-!
# Lines of a module and the events they answer

A module answers in lines, and `handle_module_response` is to get one whole line at
a time, written after the event it answers. `read_line_timeout` returns on a timeout
and on a full buffer too, though, and a delivery ends while more may follow.
`responses_framed` says that this is all there is to it.
-/
open BaseLib

namespace Tnt

/-- The `line` and its newline are the bytes from `start` to `stop` of the output, and begin a line there. -/
structure IsLine (output : List (UInt8 × Nat)) (line : Bytes) (start stop : Nat) : Prop where
  text : ((output.drop start).take (stop - start)).map (·.1) = line ++ [newline]
  one : newline ∉ line
  begins : start = 0 ∨ (output[start - 1]?).map (·.1) = some newline
  stops : stop ≤ output.length

/-- The bytes that a response was read from. -/
def Happening.span : Happening → Option (Nat × Nat)
  | .response _ start stop _ => some (start, stop)
  | _ => none

/-- What was handled for a module. -/
structure FramedResponses (m : ModuleProcess) : Prop where
  /-- Each response is a line of the output. -/
  whole : ∀ line start stop action, .response line start stop action ∈ m.history → IsLine m.output line start stop
  /-- No two of them are the same line. -/
  once : (m.history.filterMap Happening.span).Pairwise fun a b => a.2 ≤ b.1
  /-- A response to an event was written after it. -/
  fresh : ∀ pre line start stop action post, m.history = pre ++ .response line start stop action :: post →
    ∀ x ∈ (m.output.drop start).take (stop - start), pre.count .sent ≤ x.2

/-- The step neither ends a line before its newline, nor sends an event while output is left to read. -/
def Framed (r : Runtime) : RuntimeEvent → Bool
  | .send _ =>
    match r.worker with
    | .next i => r.modules[i]?.all fun m => !m.active || m.consumed == m.output.length
    | _ => true
  | .read .timeout _ =>
    match r.worker with
    | .reading _ responses line => line == [] || TNT_MODULE_MAX_RESPONSES_PER_EVENT ≤ responses
    | _ => true
  | .read .byte _ =>
    match r.worker with
    | .reading i responses line => r.modules[i]?.all fun m => m.output[m.consumed]?.all fun c =>
        c.1 == newline || line.length + 2 < TNT_MODULE_LINE_MAX || TNT_MODULE_MAX_RESPONSES_PER_EVENT ≤ responses
    | _ => true
  | _ => true

/-- The handshake was answered by whole lines. -/
def Greeting.Whole (g : Greeting) : Prop := g.consumed = 0 ∨ g.output[g.consumed - 1]? = some newline

instance (g : Greeting) : Decidable g.Whole := inferInstanceAs (Decidable (_ ∨ _))

/-! ## Lines of a growing output -/

section
variable {output : List (UInt8 × Nat)} {line : Bytes} {start stop : Nat}

theorem drop_take_append (start : Nat) (h : stop ≤ output.length) (more : List (UInt8 × Nat)) :
    ((output ++ more).drop start).take (stop - start) = (output.drop start).take (stop - start) := by
  rcases Nat.le_total start output.length with hs | hs
  · rw [List.drop_append_of_le_length hs, List.take_append_of_le_length (by rw [List.length_drop]; omega)]
  · rw [Nat.sub_eq_zero_of_le (h.trans hs), List.take_zero, List.take_zero]

/-- A byte that has been written stays where it is. -/
theorem byte_append {i : Nat} {b : UInt8} (h : (output[i]?).map (·.1) = some b) (more : List (UInt8 × Nat)) :
    ((output ++ more)[i]?).map (·.1) = some b := by
  obtain ⟨x, hx, -⟩ := Option.map_eq_some_iff.1 h
  rwa [List.getElem?_append_left (List.getElem?_eq_some_iff.1 hx).1]

theorem IsLine.append (h : IsLine output line start stop) (more : List (UInt8 × Nat)) :
    IsLine (output ++ more) line start stop where
  text := by rw [drop_take_append _ h.stops, h.text]
  one := h.one
  begins := h.begins.imp_right fun hb => byte_append hb more
  stops := h.stops.trans (by rw [List.length_append]; omega)

end

/-! ## One module -/

/-- Where the reader of a module is: behind whole lines and the bytes of `line`. -/
structure AtLine (m : ModuleProcess) (line : Bytes) (start : Nat) : Prop where
  consumed : m.consumed = start + line.length
  fits : m.consumed ≤ m.output.length
  text : ((m.output.drop start).take line.length).map (·.1) = line
  one : newline ∉ line
  begins : start = 0 ∨ (m.output[start - 1]?).map (·.1) = some newline

structure FramingInv (m : ModuleProcess) (phase : Option (Nat × Bytes)) : Prop where
  framed : FramedResponses m
  events : m.events = m.history.count .sent
  /-- Of an active module, whole lines were read and the line that is being read. What was read for an
  event was written after it. -/
  reading : m.active = true → ∃ start, AtLine m ((phase.map (·.2)).getD []) start ∧
    (∀ span ∈ m.history.filterMap Happening.span, span.2 ≤ start) ∧
    (phase.isSome = true → ∀ x ∈ m.output.drop start, m.events ≤ x.2)

section
variable {m m' : ModuleProcess} {line : Bytes} {start : Nat}

theorem AtLine.append (h : AtLine m line start) (more : List (UInt8 × Nat)) :
    AtLine { m with output := m.output ++ more } line start where
  consumed := h.consumed
  fits := h.fits.trans (by rw [List.length_append]; omega)
  text := by
    have hstop : start + line.length ≤ m.output.length := h.consumed ▸ h.fits
    have happend := drop_take_append start hstop more
    rw [Nat.add_sub_cancel_left] at happend
    rw [happend, h.text]
  one := h.one
  begins := h.begins.imp_right fun hb => byte_append hb more

/-- The bytes of the line and the next one. -/
theorem AtLine.take_succ (h : AtLine m line start) {c : UInt8 × Nat} (hc : m.output[m.consumed]? = some c) :
    ((m.output.drop start).take (line.length + 1)).map (·.1) = line ++ [c.1] := by
  have hnext : (m.output.drop start)[line.length]? = some c := by rw [List.getElem?_drop, ← h.consumed, hc]
  rw [List.take_add_one, hnext, List.map_append, h.text]
  rfl

theorem AtLine.byte (h : AtLine m line start) {c : UInt8 × Nat} (hc : m.output[m.consumed]? = some c)
    (hline : c.1 ≠ newline) :
    AtLine { m with consumed := m.consumed + 1 } (line ++ [c.1]) start where
  consumed := by rw [List.length_append, List.length_singleton, ← Nat.add_assoc, h.consumed]
  fits := (List.getElem?_eq_some_iff.1 hc).1
  text := by rw [List.length_append, List.length_singleton, h.take_succ hc]
  one := by
    rw [List.mem_append, List.mem_singleton, not_or]
    exact ⟨h.one, Ne.symm hline⟩
  begins := h.begins

/-- A newline ends the line, and the next one begins behind it. -/
theorem AtLine.newline (h : AtLine m line start) {c : UInt8 × Nat} (hc : m.output[m.consumed]? = some c)
    (hline : c.1 = newline) : IsLine m.output line start (m.consumed + 1) ∧
      AtLine { m with consumed := m.consumed + 1 } [] (m.consumed + 1) := by
  have hlt := (List.getElem?_eq_some_iff.1 hc).1
  have htext := h.take_succ hc
  rw [hline] at htext
  refine ⟨⟨?_, h.one, h.begins, hlt⟩, ⟨rfl, hlt, rfl, List.not_mem_nil, .inr ?_⟩⟩
  · rw [h.consumed, Nat.add_assoc, Nat.add_sub_cancel_left, htext]
  · rw [Nat.add_sub_cancel, hc, Option.map_some, hline]

/-- An entry of a history that grew by one is the new one, or one of those before. -/
theorem concat_eq_append_cons {α : Type*} {l pre post : List α} {x y : α} (h : l ++ [x] = pre ++ y :: post) :
    (pre = l ∧ y = x) ∨ ∃ post', l = pre ++ y :: post' := by
  rcases List.eq_nil_or_concat post with rfl | ⟨post', z, rfl⟩
  · obtain ⟨rfl, hxy⟩ := List.append_inj' h rfl
    exact .inl ⟨rfl, (List.singleton_inj.1 hxy).symm⟩
  · rw [List.concat_eq_append, ← List.cons_append, ← List.append_assoc] at h
    exact .inr ⟨post', (List.append_inj' h rfl).1⟩

theorem FramedResponses.record (h : FramedResponses m) {x : Happening} (hx : x.span = none)
    (hhist : m'.history = m.history ++ [x]) (hout : m'.output = m.output) : FramedResponses m' where
  whole line start stop action hm := by
    rw [hhist, List.mem_append, List.mem_singleton] at hm
    rcases hm with hm | rfl
    · exact hout ▸ h.whole line start stop action hm
    · cases hx
  once := by
    rw [hhist, List.filterMap_append]
    simpa [hx] using h.once
  fresh pre line start stop action post hsplit := by
    rw [hhist] at hsplit
    rcases concat_eq_append_cons hsplit with ⟨-, rfl⟩ | ⟨post', hsplit⟩
    · cases hx
    · exact hout ▸ h.fresh pre line start stop action post' hsplit

/-- A line behind those that were handled, which was written after the last event, may be handled too. -/
theorem FramedResponses.response (h : FramedResponses m) {stop : Nat} {action : ResponseAction}
    (hline : IsLine m.output line start stop) (hspans : ∀ span ∈ m.history.filterMap Happening.span, span.2 ≤ start)
    (hfresh : ∀ x ∈ m.output.drop start, m.history.count .sent ≤ x.2)
    (hhist : m'.history = m.history ++ [.response line start stop action]) (hout : m'.output = m.output) :
    FramedResponses m' where
  whole line' start' stop' action' hm := by
    rw [hhist, List.mem_append, List.mem_singleton] at hm
    rcases hm with hm | hm
    · exact hout ▸ h.whole line' start' stop' action' hm
    · cases hm
      exact hout ▸ hline
  once := by
    rw [hhist, List.filterMap_append, List.pairwise_append]
    refine ⟨h.once, List.pairwise_singleton _ _, fun a ha b hb => ?_⟩
    obtain rfl := List.mem_singleton.1 hb
    exact hspans a ha
  fresh pre line' start' stop' action' post hsplit := by
    rw [hhist] at hsplit
    rcases concat_eq_append_cons hsplit with ⟨rfl, heq⟩ | ⟨post', hsplit⟩
    · cases heq
      exact fun x hx => hfresh x (List.mem_of_mem_take (hout ▸ hx))
    · exact hout ▸ h.fresh pre line' start' stop' action' post' hsplit

end

/-- `Framed`, for the module that the step is about. -/
def FramedBy (e : RuntimeEvent) (m : ModuleProcess) : Option (Nat × Bytes) → Prop
  | none => ∀ written, e = .send written → m.active = true → m.consumed = m.output.length
  | some (responses, line) => responses < TNT_MODULE_MAX_RESPONSES_PER_EVENT →
      (∀ now, e = .read .timeout now → line = []) ∧
        ∀ now c, e = .read .byte now → m.output[m.consumed]? = some c → c.1 = newline ∨ line.length + 2 <
          TNT_MODULE_LINE_MAX

section
variable {e : RuntimeEvent} {m m₁ m' : ModuleProcess} {phase phase' : Option (Nat × Bytes)} {responses : Nat}
  {line text : Bytes} {poll : Readiness} {now : Int} {round : ReadRound}

/-- What is handled in a framed step is a line, up to its newline. -/
theorem pollRound_framed (hf : FramedBy (.read poll now) m (some (responses, line)))
    (hmax : responses < TNT_MODULE_MAX_RESPONSES_PER_EVENT) (h : pollRound m line poll = some (.line text, m₁))
    (htext : text ≠ []) :
    text = line ∧ ∃ c, m.output[m.consumed]? = some c ∧ c.1 = newline ∧ m₁ = { m with consumed := m.consumed + 1 } := by
  obtain ⟨htimeout, hbyte⟩ := hf hmax
  rcases pollRound_cases h with ⟨rfl, hround, -⟩ | ⟨-, hround, -⟩ | ⟨c, rfl, hc, hround, rfl⟩
  · cases hround
    exact absurd (htimeout now rfl) htext
  · cases hround
  · rcases readByte_cases TNT_MODULE_LINE_MAX line c.1 with ⟨hline, hread⟩ | ⟨hne, hread | ⟨-, hread⟩ | ⟨hfull, hread⟩⟩
    · rw [hread] at hround
      cases hround
      exact ⟨rfl, c, hc, hline, rfl⟩
    · rw [hread] at hround
      cases hround
    · rw [hread] at hround
      cases hround
    · rcases hbyte now c rfl hc with hline | hfits
      · exact absurd hline hne
      · omega

/-- The response that is recorded for it, whatever else changes. -/
theorem FramingInv.response (hi : FramingInv m (some (responses, line))) (hactive : m.active = true)
    (hf : FramedBy (.read poll now) m (some (responses, line))) (hmax : responses < TNT_MODULE_MAX_RESPONSES_PER_EVENT)
    (h : pollRound m line poll = some (.line text, m₁)) (htext : text ≠ []) {action : ResponseAction}
    (hhist : m'.history = m₁.history ++ [.response text (m.consumed - line.length) m₁.consumed action])
    (hout : m'.output = m₁.output) (hevents : m'.events = m₁.events) (hconsumed : m'.consumed = m₁.consumed)
    (hphase : ∀ x ∈ phase', x.2 = []) : FramingInv m' phase' := by
  obtain ⟨start, hat, hspans, hfresh⟩ := hi.reading hactive
  obtain ⟨rfl, c, hc, hline, rfl⟩ := pollRound_framed hf hmax h htext
  dsimp only [Option.map_some, Option.getD_some] at hat hhist hout hevents hconsumed
  obtain ⟨hisline, hnext⟩ := hat.newline hc hline
  have hstart : m.consumed - text.length = start := by
    rw [hat.consumed]
    exact Nat.add_sub_cancel start text.length
  rw [hstart] at hhist
  have hlines := hi.framed.response hisline hspans (fun x hx => hi.events ▸ hfresh rfl x hx) hhist hout
  refine ⟨hlines, ?_, fun _ => ⟨m.consumed + 1, ?_, ?_, ?_⟩⟩
  · rw [hevents, hhist, List.count_append, hi.events]
    rfl
  · have hnil : (phase'.map (·.2)).getD [] = [] := by
      cases phase' with
      | none => rfl
      | some x => exact hphase x rfl
    rw [hnil]
    exact ⟨hconsumed.trans hnext.consumed, by rw [hconsumed, hout]; exact hnext.fits, rfl, hnext.one,
      hout ▸ hnext.begins⟩
  · intro span hspan
    rw [hhist, List.filterMap_append, List.mem_append] at hspan
    rcases hspan with hspan | hspan
    · have := hspans span hspan
      have := hat.consumed
      omega
    · obtain rfl := List.mem_singleton.1 hspan
      exact Nat.le_refl _
  · intro _ x hx
    rw [hout] at hx
    rw [hevents]
    refine hfresh rfl x ((List.drop_suffix_drop_left _ ?_).subset hx)
    have := hat.consumed
    omega

/-- A module that is given up has nothing handled any more. -/
theorem FramingInv.closed (hi : FramingInv m phase) {h : Happening} (hspan : h.span = none) (hsent : h ≠ .sent)
    (hhist : m'.history = m.history ++ [h]) (hout : m'.output = m.output) (hevents : m'.events = m.events)
    (hactive : m'.active = false) : FramingInv m' none where
  framed := hi.framed.record hspan hhist hout
  events := by rw [hevents, hhist, List.count_append, hi.events, List.count_singleton, if_neg (by simpa using hsent),
    Nat.add_zero]
  reading hopen := by
    rw [hactive] at hopen
    cases hopen

theorem FramingInv.published (hi : FramingInv m phase) (id : Nat) : FramingInv (m.record (.published id)) phase where
  framed := hi.framed.record rfl rfl rfl
  events := by
    simp only [ModuleProcess.record]
    rw [List.count_append, hi.events]
    rfl
  reading hactive := by
    obtain ⟨start, hat, hspans, hfresh⟩ := hi.reading hactive
    refine ⟨start, ⟨hat.consumed, hat.fits, hat.text, hat.one, hat.begins⟩, ?_, hfresh⟩
    simp only [ModuleProcess.record]
    rw [List.filterMap_append]
    simpa [Happening.span] using hspans

theorem pollRound_history (h : pollRound m line poll = some (round, m₁)) :
    m₁.history = m.history ∧ m₁.output = m.output ∧ m₁.events = m.events := by
  rw [pollRound_same h]
  exact ⟨rfl, rfl, rfl⟩

theorem framingInv_exchange (hi : FramingInv m phase) (hopen : phase.isSome = true → m.active = true)
    (h : Exchange e m phase m' phase') (hf : FramedBy e m phase) : FramingInv m' phase' := by
  cases h with
  | same => exact hi
  | output i bytes =>
    refine ⟨⟨?_, hi.framed.once, ?_⟩, hi.events, fun hactive => ?_⟩
    · exact fun line start stop action hm => (hi.framed.whole line start stop action hm).append _
    · intro pre line start stop action post hsplit x hx
      have hmem : Happening.response line start stop action ∈ m.history := by
        rw [show m.history = _ from hsplit]
        simp
      rw [drop_take_append _ (hi.framed.whole line start stop action hmem).stops] at hx
      exact hi.framed.fresh pre line start stop action post hsplit x hx
    · -- New output comes behind what is there, and carries the count of the events so far.
      obtain ⟨start, hat, hspans, hfresh⟩ := hi.reading hactive
      refine ⟨start, hat.append _, hspans, fun hphase x hx => ?_⟩
      have hle : start ≤ m.output.length := by
        have := hat.consumed
        have := hat.fits
        omega
      rw [List.drop_append_of_le_length hle, List.mem_append] at hx
      rcases hx with hx | hx
      · exact hfresh hphase x hx
      · obtain ⟨b, -, rfl⟩ := List.mem_map.1 hx
        exact Nat.le_refl _
  | sent hactive =>
    obtain ⟨start, hat, hspans, -⟩ := hi.reading hactive
    have hread := hf _ rfl hactive
    refine ⟨hi.framed.record rfl rfl rfl, ?_, fun _ => ⟨start,
      ⟨hat.consumed, hat.fits, hat.text, hat.one, hat.begins⟩, ?_, ?_⟩⟩
    · simp only [ModuleProcess.record]
      rw [List.count_append, hi.events]
      rfl
    · simp only [ModuleProcess.record]
      rw [List.filterMap_append]
      simpa [Happening.span] using hspans
    · -- At the time of sending everything has been read, so all that follows is new.
      intro _ x hx
      have hnil : m.output.drop start = [] := by
        rw [List.drop_eq_nil_iff, ← hread, hat.consumed]
        exact Nat.le_refl start
      have hx : x ∈ m.output.drop start := hx
      rw [hnil] at hx
      cases hx
  | sendFailed => exact hi.closed rfl (by decide) rfl rfl rfl rfl
  | byte hc hline hfits =>
    obtain ⟨start, hat, hspans, hfresh⟩ := hi.reading (hopen rfl)
    exact ⟨⟨hi.framed.whole, hi.framed.once, hi.framed.fresh⟩, hi.events, fun _ =>
      ⟨start, hat.byte hc hline, hspans, hfresh⟩⟩
  | readFailed hpoll =>
    obtain ⟨hhist, hout, hevents⟩ := pollRound_history hpoll
    exact hi.closed rfl (by decide) (congrArg (· ++ _) hhist) hout hevents rfl
  | excess hpoll =>
    obtain ⟨hhist, hout, hevents⟩ := pollRound_history hpoll
    exact hi.closed rfl (by decide) (congrArg (· ++ _) hhist) hout hevents rfl
  | nothing hpoll =>
    obtain ⟨start, hat, hspans, -⟩ := hi.reading (hopen rfl)
    rcases pollRound_cases hpoll with ⟨-, hround, rfl⟩ | ⟨-, hround, -⟩ | ⟨c, -, hc, hround, rfl⟩
    · cases hround
      exact ⟨hi.framed, hi.events, fun _ => ⟨start, hat, hspans, fun h => by cases h⟩⟩
    · cases hround
    · rename_i line
      rcases readByte_cases TNT_MODULE_LINE_MAX line c.1 with ⟨hline, hread⟩ | ⟨-, hread | ⟨-, hread⟩ | ⟨-, hread⟩⟩
      · rw [hread] at hround
        cases hround
        obtain ⟨-, hnext⟩ := hat.newline hc hline
        refine ⟨⟨hi.framed.whole, hi.framed.once, hi.framed.fresh⟩, hi.events,
          fun _ => ⟨_, hnext, ?_, fun h => by cases h⟩⟩
        intro span hspan
        have := hspans span hspan
        have := hat.consumed
        omega
      all_goals
        rw [hread] at hround
        simp at hround
  | more id hpoll htext hmax haction =>
    refine FramingInv.published ?_ id
    refine hi.response (hopen rfl) hf hmax hpoll htext rfl rfl rfl rfl ?_
    rintro x ⟨⟩
    rfl
  | done hpoll htext hmax haction =>
    exact hi.response (hopen rfl) hf hmax hpoll htext rfl rfl rfl rfl (fun x hx => by cases hx)
  | invalid hpoll htext hmax haction =>
    exact hi.response (hopen rfl) hf hmax hpoll htext rfl rfl rfl rfl (fun x hx => by cases hx)

end

/-! ## Every run -/

theorem Worker.on_some {w : Worker} {i responses : Nat} {line : Bytes} (h : w.on i = some (responses, line)) :
    w = .reading i responses line := by
  unfold Worker.on at h
  split at h
  · split at h
    · rename_i hj
      cases h
      rw [hj]
    · cases h
  · cases h

section
variable {cfg : ServerConfig} {r r' : Runtime} {e : RuntimeEvent} {i : Nat} {m : ModuleProcess}

theorem framed_by (hf : Framed r e = true) (hm : r.modules[i]? = some m)
    (hsend : ∀ written, e = .send written → r.worker = .next i) : FramedBy e m (r.worker.on i) := by
  cases hphase : r.worker.on i with
  | none =>
    rintro written rfl hactive
    simpa [Framed, hsend written rfl, hm, hactive] using hf
  | some phase =>
    obtain ⟨responses, line⟩ := phase
    have hworker := Worker.on_some hphase
    intro hmax
    have hmax' : ¬ TNT_MODULE_MAX_RESPONSES_PER_EVENT ≤ responses := Nat.not_le.2 hmax
    constructor
    · rintro now rfl
      simpa [Framed, hworker, hmax'] using hf
    · rintro now c rfl hc
      simpa [Framed, hworker, hm, hc, hmax'] using hf

theorem framing_step (hinv : RuntimeInv cfg r) (hi : ∀ i m, r.modules[i]? = some m → FramingInv m (r.worker.on i))
    (hf : Framed r e = true) (h : runtimeStep cfg r e = some r') :
    ∀ i m, r'.modules[i]? = some m → FramingInv m (r'.worker.on i) := by
  intro i m' hm'
  have hlt : i < r.modules.length := runtimeStep_length h ▸ (List.getElem?_eq_some_iff.1 hm').1
  obtain ⟨m, hm⟩ : ∃ m, r.modules[i]? = some m := ⟨_, List.getElem?_eq_getElem hlt⟩
  have hopen (hphase : (r.worker.on i).isSome = true) : m.active = true := by
    obtain ⟨⟨responses, line⟩, hphase⟩ := Option.isSome_iff_exists.1 hphase
    exact ((hinv.modules i m hm).reading _ _ hphase).1
  obtain ⟨m₁, hm₁, hex⟩ := runtimeStep_module h hm
  obtain rfl : m₁ = m' := Option.some.inj (hm₁.symm.trans hm')
  by_cases htarget : ∀ written, e = .send written → r.worker = .next i
  · exact framingInv_exchange (hi i m hm) hopen hex (framed_by hf hm htarget)
  · -- An event that is sent to another module.
    push Not at htarget
    obtain ⟨written, rfl, hne⟩ := htarget
    obtain ⟨j, hworker, -, hnone, hmodules⟩ := runtimeStep_send h
    have hj : i ≠ j := fun heq => hne (heq ▸ hworker)
    have hsame : r'.modules[i]? = r.modules[i]? := by
      rcases hmodules with ⟨hsame, -⟩ | ⟨m₂, m₃, -, hset, -⟩
      · rw [hsame]
      · rw [hset, List.getElem?_set_ne (Ne.symm hj)]
    obtain rfl : m = m₁ := Option.some.inj (hm.symm.trans (hsame.symm.trans hm'))
    have hon := hi i m hm
    rw [hworker, Worker.on_next] at hon
    rwa [hnone i hj]

theorem framingInv_started {name : Bytes} {g : Greeting} (hg : g.Whole) :
    FramingInv (.started name g.output g.consumed) none where
  framed := ⟨nofun, List.Pairwise.nil, fun pre _ _ _ _ post hsplit => by cases pre <;> cases hsplit⟩
  events := rfl
  reading _ := by
    refine ⟨g.consumed, ⟨rfl, ?_, rfl, List.not_mem_nil, ?_⟩, nofun, nofun⟩
    · simpa [ModuleProcess.started] using g.fits
    · apply hg.imp_right
      intro hlast
      simp [ModuleProcess.started, hlast]

/-- In a run whose steps all are framed, each module is answered line by line, and for the event it was
sent last. -/
theorem responses_framed (cfg : ServerConfig) (greetings : List Greeting) (dir : LogDir) (now : Int)
    (es : List RuntimeEvent) (r : Runtime) (hg : ∀ g ∈ greetings, g.Whole)
    (hf : Meets (runtimeStep cfg) (fun r e => Framed r e = true) (.create cfg greetings dir now) es)
    (h : exec (runtimeStep cfg) (.create cfg greetings dir now) es = some r) : ∀ m ∈ r.modules, FramedResponses m := by
  have hrun := exec_inv_of_meets
    (fun r => RuntimeInv cfg r ∧ ∀ i m, r.modules[i]? = some m → FramingInv m (r.worker.on i))
    (fun s e s' hs hP hstep => ⟨runtimeInv_step hs.1 hstep, framing_step hs.1 hs.2 hP hstep⟩)
    ⟨runtimeInv_create cfg greetings dir now, fun i m hm => ?_⟩ hf h
  · intro m hm
    obtain ⟨i, hm⟩ := List.mem_iff_getElem?.1 hm
    exact (hrun.2 i m hm).framed
  · obtain ⟨⟨name, g⟩, hmem, rfl⟩ := List.mem_map.1 (List.mem_of_getElem? hm)
    exact framingInv_started (hg g (List.of_mem_zip hmem).2)

end

/-- `echo` answers a post with a line. -/
theorem responses_framed_echo : ∃ r,
    exec (runtimeStep echoConfig) (.create echoConfig [⟨[], 0, by decide⟩] ⟨none, none⟩ 1752500000)
      (echoRun (lit "\x7b\"type\":\"event.ok\"\x7d\n")) = some r ∧ ∀ m ∈ r.modules, FramedResponses m := by
  have hsome : (exec (runtimeStep echoConfig) (.create echoConfig [⟨[], 0, by decide⟩] ⟨none, none⟩ 1752500000)
      (echoRun (lit "\x7b\"type\":\"event.ok\"\x7d\n"))).isSome = true := by
    decide +kernel
  obtain ⟨r, hr⟩ := Option.isSome_iff_exists.1 hsome
  exact ⟨r, hr, responses_framed echoConfig [⟨[], 0, by decide⟩] ⟨none, none⟩ 1752500000
    (echoRun (lit "\x7b\"type\":\"event.ok\"\x7d\n")) r (by decide) (by decide +kernel) hr⟩

/-- `echo` has written a part of a line when the time is up. -/
def fragmentRun : List RuntimeEvent := echoRun (lit "\x7b\"type\":") ++ [.read .timeout 1752500000]

/-- `echo` answers the first post when its time is up, and a second post is sent to it. -/
def lateRun : List RuntimeEvent :=
  echoRun [] ++ [.read .timeout 1752500000, .send true, .output 0 (lit "\x7b\"type\":\"event.ok\"\x7d\n"),
    .server (.execPost (CBuf.copy _ (lit "bob")) (lit "ho") 1752500000), .server (.save 1 (.written true)),
    .server (.broadcast 1), .server (.notify 1 true), .server (.enqueue 1 true), .dequeue, .send true] ++
  List.replicate 20 (.read .byte 1752500000)

/-- The part of the line is handled as if it were one, and the late line as an answer to the second post. -/
theorem responses_not_framed :
    (∃ r, exec (runtimeStep echoConfig) (.create echoConfig [⟨[], 0, by decide⟩] ⟨none, none⟩ 1752500000) fragmentRun =
      some r ∧ ¬ ∀ m ∈ r.modules, FramedResponses m) ∧
    ∃ r, exec (runtimeStep echoConfig) (.create echoConfig [⟨[], 0, by decide⟩] ⟨none, none⟩ 1752500000) lateRun =
      some r ∧ ¬ ∀ m ∈ r.modules, FramedResponses m := by
  constructor
  · have hrun : (exec (runtimeStep echoConfig) (.create echoConfig [⟨[], 0, by decide⟩] ⟨none, none⟩ 1752500000)
        fragmentRun).any (fun r => decide (∃ m ∈ r.modules, m.output = (lit "\x7b\"type\":").map (·, 1) ∧
          m.history = [.sent, .response (lit "\x7b\"type\":") 0 8 .invalid])) = true := by decide +kernel
    obtain ⟨r, hr, hp⟩ := (Option.any_eq_true _ _).1 hrun
    obtain ⟨m, hm, hout, hhist⟩ := of_decide_eq_true hp
    refine ⟨r, hr, fun hall => ?_⟩
    have htext := ((hall m hm).whole (lit "\x7b\"type\":") 0 8 .invalid (by rw [hhist]; decide)).text
    rw [hout] at htext
    exact absurd htext (by decide)
  · have hrun : (exec (runtimeStep echoConfig) (.create echoConfig [⟨[], 0, by decide⟩] ⟨none, none⟩ 1752500000)
        lateRun).any (fun r => decide (∃ m ∈ r.modules, m.output = (lit "\x7b\"type\":\"event.ok\"\x7d\n").map (·, 1) ∧
          m.history = [.sent, .sent, .response (lit "\x7b\"type\":\"event.ok\"\x7d") 0 20 .done])) = true := by
      decide +kernel
    obtain ⟨r, hr, hp⟩ := (Option.any_eq_true _ _).1 hrun
    obtain ⟨m, hm, hout, hhist⟩ := of_decide_eq_true hp
    refine ⟨r, hr, fun hall => ?_⟩
    have hlate := (hall m hm).fresh [.sent, .sent] _ 0 20 .done [] hhist (0x7B, 1) (by rw [hout]; decide)
    exact absurd hlate (by decide)

end Tnt
