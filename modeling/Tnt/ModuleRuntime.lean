import Tnt.Lib.Streaks
import Tnt.ModuleEvents
import Tnt.Server
/-!
# The module runtime (`module_runtime.c`)

One thread takes messages from the queue, writes each to every module and reads
what the module answers, a byte at a time and until a line ends, `select` times
out or the buffer is full. A module writes whenever it likes.

`runtimeStep` takes one step of the server, of a module or of that thread. Its
effect on the server is one `serverStep` at most (`runtimeStep_server`), and what
it does to the modules is `runtimeStep_cases`. Modules are those whose handshake
succeeded; what they have written is kept in full, with how much of it was read.
-/
open BaseLib

namespace Tnt

def TNT_MODULE_MAX_RESPONSES_PER_EVENT : Nat := 8
def TNT_MODULE_MAX_INVALID_RESPONSES : Nat := 3

/-- `module_response_action_t`; `MODULE_RESPONSE_CONTINUE` is `more`. -/
inductive ResponseAction
  | more | done | invalid
  deriving DecidableEq

/-- What became of the exchanges with a module. -/
inductive Happening
  /-- An event was written. -/
  | sent
  | sendFailed
  | readFailed
  /-- The line was one too many for the event. -/
  | excess
  /-- `handle_module_response` of a line, which was read from byte `start` on and up to byte `stop`. -/
  | response (line : Bytes) (start stop : Nat) (action : ResponseAction)
  /-- The publication with this number was started. -/
  | published (id : Nat)
  deriving DecidableEq

/-- `module_process_t` -/
structure ModuleProcess where
  /-- `manifest.name` -/
  name : Bytes
  active : Bool
  invalidResponses : Nat
  /-- Every byte that the module has written, with the number of events it had been sent until then. -/
  output : List (UInt8 × Nat)
  /-- The number of bytes that were read. -/
  consumed : Nat
  /-- The number of events that were written to it. -/
  events : Nat
  history : List Happening
  deriving DecidableEq

namespace ModuleProcess

/-- `close_module_process` -/
def close (m : ModuleProcess) : ModuleProcess := { m with active := false }

def record (m : ModuleProcess) (h : Happening) : ModuleProcess := { m with history := m.history ++ [h] }

/-- A module as `start_module_process` leaves it: of what it wrote, so much was read. -/
def started (name output : Bytes) (consumed : Nat) : ModuleProcess :=
  ⟨name, true, 0, output.map (·, 0), consumed, 0, []⟩

end ModuleProcess

/-- What `select` and `read` come to. -/
inductive Readiness
  | timeout | byte | error
  deriving DecidableEq

/-- A round of the loop of `read_line_timeout`: the line goes on, or the call returns. -/
inductive ReadRound
  | reading (line : Bytes)
  | line (text : Bytes)
  | failed
  deriving DecidableEq

/-- What `read_line_timeout` does with a byte, behind those in `line`. It returns in the middle of a
line that fills the buffer. -/
def readByte (lineSize : Nat) (line : Bytes) (c : UInt8) : ReadRound :=
  if c = newline then .line line
  else if c < 0x20 ∧ c ≠ 0x09 ∧ c ≠ 0x0D then .failed
  else if line.length + 1 + 1 < lineSize then .reading (line ++ [c])
  else .line (line ++ [c])

/-- A round of `read_line_timeout` on the output of a module. -/
def pollRound (m : ModuleProcess) (line : Bytes) : Readiness → Option (ReadRound × ModuleProcess)
  | .timeout => some (.line line, m)
  | .error => some (.failed, m)
  | .byte => m.output[m.consumed]?.map fun c =>
      (readByte TNT_MODULE_LINE_MAX line c.1, { m with consumed := m.consumed + 1 })

/-- `handle_module_response`, where the message it publishes is that of `composeModule`. -/
def handleModuleResponse (now : Int) (name line : Bytes) : ResponseAction :=
  if line = [] then .invalid
  else if (composeModule now name line).isSome then .more
  else if jsonGetStringField line (lit "type") 64 = some (lit "event.ok") then .done
  else .invalid

/-- How the loop of `deliver_message_to_module` goes on. -/
inductive Delivery
  | reading (responses : Nat) (line : Bytes)
  /-- The line is published, and then the next one read. -/
  | publish (line : Bytes) (responses : Nat)
  | over
  deriving DecidableEq

/-- A round of the loop of `deliver_message_to_module`, for what a round of `read_line_timeout` came
to. The line was begun at byte `start`. -/
def deliverRound (now : Int) (m : ModuleProcess) (responses start : Nat) : ReadRound → ModuleProcess × Delivery
  | .reading line => (m, .reading responses line)
  | .failed => ((m.record .readFailed).close, .over)
  | .line text =>
    if text = [] then (m, .over)
    else if responses + 1 > TNT_MODULE_MAX_RESPONSES_PER_EVENT then ((m.record .excess).close, .over)
    else
      let action := handleModuleResponse now m.name text
      let m := m.record (.response text start m.consumed action)
      match action with
      | .more => ({ m with invalidResponses := 0 }, .publish text (responses + 1))
      | .done => ({ m with invalidResponses := 0 }, .over)
      | .invalid =>
        let m := { m with invalidResponses := m.invalidResponses + 1 }
        (if m.invalidResponses ≥ TNT_MODULE_MAX_INVALID_RESPONSES then m.close else m, .over)

/-- What `module_worker_main` is at: it waits for a message, is about to deliver one to module `i`, or
reads from module `i`. -/
inductive Worker
  | idle
  | next (i : Nat)
  | reading (i responses : Nat) (line : Bytes)
  deriving DecidableEq

structure Runtime where
  server : Server
  modules : List ModuleProcess
  /-- `event_id` -/
  eventId : UInt64
  worker : Worker

/-- What a module wrote until its handshake was over, and how much of it was read. -/
structure Greeting where
  output : Bytes
  consumed : Nat
  fits : consumed ≤ output.length
  deriving DecidableEq

/-- `tnt_module_runtime_init`, once the modules are loaded. -/
def Runtime.create (cfg : ServerConfig) (greetings : List Greeting) (dir : LogDir) (now : Int) : Runtime :=
  ⟨.create dir now, (cfg.modules.zip greetings).map fun (name, g) => .started name g.output g.consumed, 0, .idle⟩

inductive RuntimeEvent
  /-- A step of a thread of the server, or of a publication. -/
  | server (e : ServerEvent)
  /-- Module `i` writes. -/
  | output (i : Nat) (bytes : Bytes)
  /-- `dequeue_message` -/
  | dequeue
  /-- An event is built and written to the next module, in full or not. -/
  | send (written : Bool)
  | read (poll : Readiness) (now : Int)

/-- The steps of the server that are not those of the module runtime, nor a new start. -/
def ServerEvent.isOwn : ServerEvent → Bool
  | .dequeue | .respond _ _ _ | .restart _ => false
  | _ => true

/-- `deliver_message_to_module` up to its loop. -/
def sendEvent (eventId : UInt64) (msg : Message) (m : ModuleProcess) (written : Bool) : ModuleProcess × Bool :=
  if (moduleEvent eventId msg).isSome && written then ({ m.record .sent with events := m.events + 1 }, true)
  else ((m.record .sendFailed).close, false)

def runtimeStep (cfg : ServerConfig) (r : Runtime) : RuntimeEvent → Option Runtime
  | .server e =>
    if e.isOwn = true then (serverStep cfg r.server e).map fun s => { r with server := s } else none
  | .output i bytes =>
    r.modules[i]?.map fun m =>
      { r with modules := r.modules.set i { m with output := m.output ++ bytes.map (·, m.events) } }
  | .dequeue =>
    if r.worker = .idle then
      (serverStep cfg r.server .dequeue).map fun s =>
        { r with server := s, eventId := r.eventId + 1, worker := .next 0 }
    else none
  | .send written =>
    match r.worker with
    | .next i =>
      match r.modules[i]?, r.server.delivering with
      | some m, some msg =>
        if m.active = false then some { r with worker := .next (i + 1) }
        else
          let (m, sent) := sendEvent r.eventId msg m written
          some { r with modules := r.modules.set i m, worker := if sent then .reading i 0 [] else .next (i + 1) }
      | _, _ => some { r with worker := .idle }
    | _ => none
  | .read poll now =>
    match r.worker with
    | .reading i responses line =>
      -- While a message of the module is published, nothing is read.
      if r.server.board.busy .moduleWorker then none
      else
        r.modules[i]?.bind fun m =>
          (pollRound m line poll).bind fun (round, m') =>
            match deliverRound now m' responses (m.consumed - line.length) round with
            | (m', .reading responses line) =>
              some { r with modules := r.modules.set i m', worker := .reading i responses line }
            | (m', .over) => some { r with modules := r.modules.set i m', worker := .next (i + 1) }
            | (m', .publish text responses) =>
              (serverStep cfg r.server (.respond m.name text now)).map fun s =>
                { r with
                  server := s
                  modules := r.modules.set i (m'.record (.published r.server.board.pubs.jobs.length))
                  worker := .reading i responses [] }
    | _ => none

/-! ## What a step does to a module -/

/-- The loop of `deliver_message_to_module` as far as it concerns module `i`: the responses so far, and
the line so far. -/
def Worker.on (i : Nat) : Worker → Option (Nat × Bytes)
  | .reading j responses line => if j = i then some (responses, line) else none
  | _ => none

@[simp] theorem Worker.on_next (i j : Nat) : (Worker.next j).on i = none := rfl

@[simp] theorem Worker.on_reading (i responses : Nat) (line : Bytes) :
    (Worker.reading i responses line).on i = some (responses, line) := if_pos rfl

theorem Worker.on_reading_ne {i j responses : Nat} {line : Bytes} (h : i ≠ j) :
    (Worker.reading j responses line).on i = none := if_neg (Ne.symm h)

/-- What a step does to a module and to the loop that reads from it. -/
inductive Exchange : RuntimeEvent → ModuleProcess → Option (Nat × Bytes) → ModuleProcess → Option (Nat × Bytes) → Prop
  | same (e : RuntimeEvent) (m : ModuleProcess) (phase : Option (Nat × Bytes)) : Exchange e m phase m phase
  | output (i : Nat) (bytes : Bytes) (m : ModuleProcess) (phase : Option (Nat × Bytes)) :
      Exchange (.output i bytes) m phase { m with output := m.output ++ bytes.map (·, m.events) } phase
  | sent {written : Bool} {m : ModuleProcess} (h : m.active = true) :
      Exchange (.send written) m none { m.record .sent with events := m.events + 1 } (some (0, []))
  | sendFailed {written : Bool} {m : ModuleProcess} (h : m.active = true) :
      Exchange (.send written) m none (m.record .sendFailed).close none
  | byte {now : Int} {m : ModuleProcess} {responses : Nat} {line : Bytes} {c : UInt8 × Nat}
      (hc : m.output[m.consumed]? = some c) (hline : c.1 ≠ newline) (hfits : line.length + 2 < TNT_MODULE_LINE_MAX) :
      Exchange (.read .byte now) m (some (responses, line)) { m with consumed := m.consumed + 1 }
        (some (responses, line ++ [c.1]))
  | readFailed {poll : Readiness} {now : Int} {m m' : ModuleProcess} {responses : Nat} {line : Bytes}
      (h : pollRound m line poll = some (.failed, m')) :
      Exchange (.read poll now) m (some (responses, line)) (m'.record .readFailed).close none
  | nothing {poll : Readiness} {now : Int} {m m' : ModuleProcess} {responses : Nat} {line : Bytes}
      (h : pollRound m line poll = some (.line [], m')) : Exchange (.read poll now) m (some (responses, line)) m' none
  | excess {poll : Readiness} {now : Int} {m m' : ModuleProcess} {responses : Nat} {line text : Bytes}
      (h : pollRound m line poll = some (.line text, m')) (htext : text ≠ [])
      (hmax : TNT_MODULE_MAX_RESPONSES_PER_EVENT ≤ responses) :
      Exchange (.read poll now) m (some (responses, line)) (m'.record .excess).close none
  | more {poll : Readiness} {now : Int} {m m' : ModuleProcess} {responses : Nat} {line text : Bytes} (id : Nat)
      (h : pollRound m line poll = some (.line text, m')) (htext : text ≠ [])
      (hmax : responses < TNT_MODULE_MAX_RESPONSES_PER_EVENT) (haction : handleModuleResponse now m.name text = .more) :
      Exchange (.read poll now) m (some (responses, line))
        ({ m'.record (.response text (m.consumed - line.length) m'.consumed .more) with invalidResponses := 0 }.record
          (.published id)) (some (responses + 1, []))
  | done {poll : Readiness} {now : Int} {m m' : ModuleProcess} {responses : Nat} {line text : Bytes}
      (h : pollRound m line poll = some (.line text, m')) (htext : text ≠ [])
      (hmax : responses < TNT_MODULE_MAX_RESPONSES_PER_EVENT) (haction : handleModuleResponse now m.name text = .done) :
      Exchange (.read poll now) m (some (responses, line))
        { m'.record (.response text (m.consumed - line.length) m'.consumed .done) with invalidResponses := 0 } none
  | invalid {poll : Readiness} {now : Int} {m m' : ModuleProcess} {responses : Nat} {line text : Bytes}
      (h : pollRound m line poll = some (.line text, m')) (htext : text ≠ [])
      (hmax : responses < TNT_MODULE_MAX_RESPONSES_PER_EVENT)
      (haction : handleModuleResponse now m.name text = .invalid) :
      Exchange (.read poll now) m (some (responses, line))
        { m'.record (.response text (m.consumed - line.length) m'.consumed .invalid) with
          invalidResponses := m.invalidResponses + 1
          active := m'.active && m.invalidResponses + 1 < TNT_MODULE_MAX_INVALID_RESPONSES } none

section
variable {now : Int} {m m₁ m₂ : ModuleProcess} {line : Bytes} {poll : Readiness} {round : ReadRound} {responses : Nat}
  {delivery : Delivery}

theorem pollRound_cases (h : pollRound m line poll = some (round, m₁)) :
    (poll = .timeout ∧ round = .line line ∧ m₁ = m) ∨ (poll = .error ∧ round = .failed ∧ m₁ = m) ∨
      ∃ c, poll = .byte ∧ m.output[m.consumed]? = some c ∧ round = readByte TNT_MODULE_LINE_MAX line c.1 ∧
        m₁ = { m with consumed := m.consumed + 1 } := by
  cases poll with
  | timeout =>
    cases h
    exact .inl ⟨rfl, rfl, rfl⟩
  | error =>
    cases h
    exact .inr (.inl ⟨rfl, rfl, rfl⟩)
  | byte =>
    obtain ⟨c, hc, heq⟩ := Option.map_eq_some_iff.1 h
    cases heq
    exact .inr (.inr ⟨c, rfl, hc, rfl, rfl⟩)

/-- Reading changes nothing of a module but how much was read. -/
theorem pollRound_same (h : pollRound m line poll = some (round, m₁)) : m₁ = { m with consumed := m₁.consumed } := by
  rcases pollRound_cases h with ⟨-, -, rfl⟩ | ⟨-, -, rfl⟩ | ⟨c, -, -, -, rfl⟩ <;> rfl

theorem readByte_cases (lineSize : Nat) (line : Bytes) (c : UInt8) :
    (c = newline ∧ readByte lineSize line c = .line line) ∨
      (c ≠ newline ∧ (readByte lineSize line c = .failed ∨
        (line.length + 2 < lineSize ∧ readByte lineSize line c = .reading (line ++ [c])) ∨
        (lineSize ≤ line.length + 2 ∧ readByte lineSize line c = .line (line ++ [c])))) := by
  unfold readByte
  split_ifs with h1 h2 h3
  · exact .inl ⟨h1, rfl⟩
  · exact .inr ⟨h1, .inl rfl⟩
  · exact .inr ⟨h1, .inr (.inl ⟨h3, rfl⟩)⟩
  · exact .inr ⟨h1, .inr (.inr ⟨Nat.le_of_not_lt h3, rfl⟩)⟩

/-- A round of both loops is an exchange with the module. -/
theorem deliverRound_exchange (hpoll : pollRound m line poll = some (round, m₁))
    (hround : deliverRound now m₁ responses (m.consumed - line.length) round = (m₂, delivery)) :
    match delivery with
    | .reading responses' line' => Exchange (.read poll now) m (some (responses, line)) m₂ (some (responses', line'))
    | .over => Exchange (.read poll now) m (some (responses, line)) m₂ none
    | .publish text responses' => handleModuleResponse now m.name text = .more ∧
        ∀ id, Exchange (.read poll now) m (some (responses, line)) (m₂.record (.published id))
          (some (responses', [])) := by
  have hname : m₁.name = m.name := by rw [pollRound_same hpoll]
  have hinvalid : m₁.invalidResponses = m.invalidResponses := by rw [pollRound_same hpoll]
  cases round with
  | reading line' =>
    cases hround
    rcases pollRound_cases hpoll with ⟨-, h, -⟩ | ⟨-, h, -⟩ | ⟨c, rfl, hc, hread, rfl⟩
    · cases h
    · cases h
    · rcases readByte_cases TNT_MODULE_LINE_MAX line c.1 with ⟨-, h⟩ | ⟨hline, h | ⟨hfits, h⟩ | ⟨-, h⟩⟩
      all_goals rw [h] at hread; cases hread
      exact .byte hc hline hfits
  | failed =>
    cases hround
    exact .readFailed hpoll
  | line text =>
    simp only [deliverRound] at hround
    split at hround
    · rename_i htext
      cases hround
      exact .nothing (htext ▸ hpoll)
    rename_i htext
    split at hround
    · rename_i hmax
      cases hround
      exact .excess hpoll htext (by omega)
    rename_i hmax
    have hmax : responses < TNT_MODULE_MAX_RESPONSES_PER_EVENT := by omega
    rw [hname] at hround
    cases haction : handleModuleResponse now m.name text with
    | more =>
      rw [haction] at hround
      cases hround
      exact ⟨haction, fun id => .more id hpoll htext hmax haction⟩
    | done =>
      rw [haction] at hround
      cases hround
      exact .done hpoll htext hmax haction
    | invalid =>
      rw [haction] at hround
      -- The third one in a row closes the module.
      have hex := Exchange.invalid hpoll htext hmax haction
      simp only [ModuleProcess.record, ModuleProcess.close, hinvalid] at hround hex
      split at hround <;> rename_i hthree
      · cases hround
        convert hex using 2
        simp [hthree]
      · cases hround
        convert hex using 2
        simp
        omega

end

/-- A module keeps its name, and its history and its output only grow. -/
theorem Exchange.grows {e : RuntimeEvent} {m m' : ModuleProcess} {phase phase' : Option (Nat × Bytes)}
    (h : Exchange e m phase m' phase') : m'.name = m.name ∧ m.history <+: m'.history ∧ m.output <+: m'.output := by
  have hpoll {line : Bytes} {poll : Readiness} {round : ReadRound} {m m₁ : ModuleProcess}
      (h : pollRound m line poll = some (round, m₁)) :
      m₁.name = m.name ∧ m.history = m₁.history ∧ m.output <+: m₁.output := by
    rw [pollRound_same h]
    exact ⟨rfl, rfl, List.prefix_rfl⟩
  cases h with
  | same => exact ⟨rfl, List.prefix_rfl, List.prefix_rfl⟩
  | output i bytes => exact ⟨rfl, List.prefix_rfl, List.prefix_append _ _⟩
  | sent => exact ⟨rfl, List.prefix_append _ _, List.prefix_rfl⟩
  | sendFailed => exact ⟨rfl, List.prefix_append _ _, List.prefix_rfl⟩
  | byte => exact ⟨rfl, List.prefix_rfl, List.prefix_rfl⟩
  | readFailed h =>
    obtain ⟨hname, hhist, hout⟩ := hpoll h
    exact ⟨hname, hhist ▸ List.prefix_append _ _, hout⟩
  | nothing h =>
    obtain ⟨hname, hhist, hout⟩ := hpoll h
    exact ⟨hname, hhist ▸ List.prefix_rfl, hout⟩
  | excess h =>
    obtain ⟨hname, hhist, hout⟩ := hpoll h
    exact ⟨hname, hhist ▸ List.prefix_append _ _, hout⟩
  | more id h =>
    obtain ⟨hname, hhist, hout⟩ := hpoll h
    exact ⟨hname, hhist ▸ (List.prefix_append _ _).trans (List.prefix_append _ _), hout⟩
  | done h =>
    obtain ⟨hname, hhist, hout⟩ := hpoll h
    exact ⟨hname, hhist ▸ List.prefix_append _ _, hout⟩
  | invalid h =>
    obtain ⟨hname, hhist, hout⟩ := hpoll h
    exact ⟨hname, hhist ▸ List.prefix_append _ _, hout⟩

section
variable {cfg : ServerConfig} {r r' : Runtime} {e : RuntimeEvent} {i : Nat} {m : ModuleProcess}

theorem runtimeStep_send {written : Bool} (h : runtimeStep cfg r (.send written) = some r') :
    ∃ i, r.worker = .next i ∧ r'.server = r.server ∧ (∀ j, j ≠ i → r'.worker.on j = none) ∧
      ((r'.modules = r.modules ∧ r'.worker.on i = none) ∨
        ∃ m m', r.modules[i]? = some m ∧ r'.modules = r.modules.set i m' ∧
          Exchange (.send written) m none m' (r'.worker.on i)) := by
  unfold runtimeStep at h
  dsimp only at h
  split at h
  · rename_i i hworker
    refine ⟨i, hworker, ?_⟩
    split at h
    · rename_i m msg hm hmsg
      split at h
      · cases h
        exact ⟨rfl, fun _ _ => rfl, .inl ⟨rfl, rfl⟩⟩
      · rename_i hactive
        rw [Bool.not_eq_false] at hactive
        by_cases hwritten : ((moduleEvent r.eventId msg).isSome && written) = true
        · rw [sendEvent, if_pos hwritten] at h
          cases h
          exact ⟨rfl, fun j hj => Worker.on_reading_ne hj, .inr ⟨m, _, hm, rfl, by
            simpa using Exchange.sent hactive⟩⟩
        · rw [sendEvent, if_neg hwritten] at h
          cases h
          exact ⟨rfl, fun _ _ => rfl, .inr ⟨m, _, hm, rfl, .sendFailed hactive⟩⟩
    · cases h
      exact ⟨rfl, fun _ _ => rfl, .inl ⟨rfl, rfl⟩⟩
  · exact absurd h (by simp)

/-- A read either leaves the server as it is, or starts a publication of the module. -/
theorem runtimeStep_read {poll : Readiness} {now : Int} (h : runtimeStep cfg r (.read poll now) = some r') :
    ∃ i responses line m m', r.worker = .reading i responses line ∧ r.modules[i]? = some m ∧
      r'.modules = r.modules.set i m' ∧ (∀ j, j ≠ i → r'.worker.on j = none) ∧
      Exchange (.read poll now) m (some (responses, line)) m' (r'.worker.on i) ∧
      (r'.server = r.server ∨ ∃ text, serverStep cfg r.server (.respond m.name text now) = some r'.server ∧
        .published r.server.board.pubs.jobs.length ∈ m'.history) := by
  unfold runtimeStep at h
  dsimp only at h
  split at h
  · rename_i i responses line hworker
    rw [Option.ite_none_left_eq_some] at h
    obtain ⟨-, h⟩ := h
    obtain ⟨m, hm, h⟩ := Option.bind_eq_some_iff.1 h
    obtain ⟨⟨round, m₁⟩, hpoll, h⟩ := Option.bind_eq_some_iff.1 h
    refine ⟨i, responses, line, m, ?_⟩
    dsimp only at h
    split at h
    · rename_i m₂ responses' line' hround
      cases h
      have hex := deliverRound_exchange hpoll hround
      exact ⟨m₂, hworker, hm, rfl, fun j hj => Worker.on_reading_ne hj, by
        rw [Worker.on_reading]
        exact hex, .inl rfl⟩
    · rename_i m₂ hround
      cases h
      have hex := deliverRound_exchange hpoll hround
      exact ⟨m₂, hworker, hm, rfl, fun _ _ => rfl, hex, .inl rfl⟩
    · rename_i m₂ text responses' hround
      obtain ⟨s, hs, rfl⟩ := Option.map_eq_some_iff.1 h
      obtain ⟨-, hex⟩ := deliverRound_exchange hpoll hround
      exact ⟨_, hworker, hm, rfl, fun j hj => Worker.on_reading_ne hj, by
        rw [Worker.on_reading]
        exact hex _, .inr ⟨text, hs, List.mem_append_right _ (List.mem_singleton_self _)⟩⟩
  · exact absurd h (by simp)

/-- What a step does to each module. -/
theorem runtimeStep_module (h : runtimeStep cfg r e = some r') (hm : r.modules[i]? = some m) :
    ∃ m', r'.modules[i]? = some m' ∧ Exchange e m (r.worker.on i) m' (r'.worker.on i) := by
  have hother (j : Nat) (m₁ : ModuleProcess) (hj : j ≠ i) : (r.modules.set j m₁)[i]? = some m := by
    rw [List.getElem?_set_ne hj, hm]
  have hset (m₁ : ModuleProcess) : (r.modules.set i m₁)[i]? = some m₁ :=
    List.getElem?_set_self (List.getElem?_eq_some_iff.1 hm).1
  cases e with
  | server se =>
    simp only [runtimeStep, Option.ite_none_right_eq_some, Option.map_eq_some_iff] at h
    obtain ⟨-, s, -, rfl⟩ := h
    exact ⟨m, hm, .same ..⟩
  | output j bytes =>
    simp only [runtimeStep, Option.map_eq_some_iff] at h
    obtain ⟨m₁, hm₁, rfl⟩ := h
    by_cases hj : j = i
    · subst hj
      obtain rfl : m = m₁ := Option.some.inj (hm.symm.trans hm₁)
      exact ⟨_, hset _, .output ..⟩
    · exact ⟨m, hother j _ hj, .same ..⟩
  | dequeue =>
    simp only [runtimeStep, Option.ite_none_right_eq_some, Option.map_eq_some_iff] at h
    obtain ⟨hidle, s, -, rfl⟩ := h
    rw [hidle]
    exact ⟨m, hm, .same ..⟩
  | send written =>
    obtain ⟨j, hworker, -, hnone, hcases⟩ := runtimeStep_send h
    have hon (k : Nat) : r.worker.on k = none := by rw [hworker]; rfl
    rw [hon i]
    by_cases hj : i = j
    · subst hj
      rcases hcases with ⟨hsame, hon'⟩ | ⟨m₁, m', hm₁, hmodules, hex⟩
      · rw [hsame, hon']
        exact ⟨m, hm, .same ..⟩
      · obtain rfl : m = m₁ := Option.some.inj (hm.symm.trans hm₁)
        rw [hmodules]
        exact ⟨m', hset m', hex⟩
    · rw [hnone i hj]
      rcases hcases with ⟨hsame, -⟩ | ⟨m₁, m', -, hmodules, -⟩
      · rw [hsame]
        exact ⟨m, hm, .same ..⟩
      · rw [hmodules]
        exact ⟨m, hother j m' (Ne.symm hj), .same ..⟩
  | read poll now =>
    obtain ⟨j, responses, line, m₁, m', hworker, hm₁, hmodules, hnone, hex, -⟩ := runtimeStep_read h
    rw [hmodules]
    by_cases hj : i = j
    · subst hj
      obtain rfl : m = m₁ := Option.some.inj (hm.symm.trans hm₁)
      rw [hworker, Worker.on_reading]
      exact ⟨m', hset m', hex⟩
    · rw [hworker, Worker.on_reading_ne hj, hnone i hj]
      exact ⟨m, hother j m' (Ne.symm hj), .same ..⟩

theorem runtimeStep_length (h : runtimeStep cfg r e = some r') : r'.modules.length = r.modules.length := by
  cases e with
  | server se =>
    simp only [runtimeStep, Option.ite_none_right_eq_some, Option.map_eq_some_iff] at h
    obtain ⟨-, s, -, rfl⟩ := h
    rfl
  | output j bytes =>
    simp only [runtimeStep, Option.map_eq_some_iff] at h
    obtain ⟨m₁, -, rfl⟩ := h
    exact List.length_set
  | dequeue =>
    simp only [runtimeStep, Option.ite_none_right_eq_some, Option.map_eq_some_iff] at h
    obtain ⟨-, s, -, rfl⟩ := h
    rfl
  | send written =>
    obtain ⟨j, -, -, -, ⟨hsame, -⟩ | ⟨m, m', -, hmodules, -⟩⟩ := runtimeStep_send h
    · rw [hsame]
    · rw [hmodules, List.length_set]
  | read poll now =>
    obtain ⟨j, responses, line, m, m', -, -, hmodules, -⟩ := runtimeStep_read h
    rw [hmodules, List.length_set]

/-- The module runtime does to the server what the server's own model of it allows. -/
theorem runtimeStep_server (h : runtimeStep cfg r e = some r') :
    r'.server = r.server ∨ ∃ se, serverStep cfg r.server se = some r'.server ∧ (se.isOwn = true ∨ se = .dequeue ∨
      ∃ (i : Nat) (m m' : ModuleProcess) (text : Bytes) (now : Int),
        se = .respond m.name text now ∧ r.modules[i]? = some m ∧ r'.modules[i]? = some m' ∧
        m'.name = m.name ∧ .published r.server.board.pubs.jobs.length ∈ m'.history) := by
  cases e with
  | server se =>
    simp only [runtimeStep, Option.ite_none_right_eq_some, Option.map_eq_some_iff] at h
    obtain ⟨hown, s, hs, rfl⟩ := h
    exact .inr ⟨se, hs, .inl hown⟩
  | output j bytes =>
    simp only [runtimeStep, Option.map_eq_some_iff] at h
    obtain ⟨m₁, -, rfl⟩ := h
    exact .inl rfl
  | dequeue =>
    simp only [runtimeStep, Option.ite_none_right_eq_some, Option.map_eq_some_iff] at h
    obtain ⟨-, s, hs, rfl⟩ := h
    exact .inr ⟨.dequeue, hs, .inr (.inl rfl)⟩
  | send written =>
    obtain ⟨-, -, hserver, -⟩ := runtimeStep_send h
    exact .inl hserver
  | read poll now =>
    obtain ⟨i, responses, line, m, m', -, hm, hmodules, -, hex, hserver⟩ := runtimeStep_read h
    refine hserver.imp_right fun ⟨text, hs, hpub⟩ =>
      ⟨_, hs, .inr (.inr ⟨i, m, m', text, now, rfl, hm, ?_, hex.grows.1, hpub⟩)⟩
    rw [hmodules, List.getElem?_set_self (List.getElem?_eq_some_iff.1 hm).1]

end

end Tnt
