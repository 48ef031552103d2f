import Tnt.Lib.Jobs
import Tnt.Lib.Runs
import Tnt.Lib.Windows
import Tnt.Publication
import Tnt.SystemMessage
/-!
# Publications (`chat_room.c`, `message.c`, `input.c`, `exec.c`, `module_runtime.c`)

A message is made public in several critical sections: it is saved under the lock
of the log and shown under the lock of the room, users it mentions are told, and
modules are sent it through a queue. Chat is saved first; the notices of joins,
leaves and renames are shown first. Any number of threads do this at a time.

`boardStep` takes one critical section. The jobs of `Board.pubs` are the
publications, and their history is a record of every call and its result.
-/
open BaseLib

namespace Tnt

def TNT_MODULE_QUEUE_LIMIT : Nat := 128

/-- A thread that publishes: that of a session, or the one of the module runtime. -/
inductive Actor
  | session (i : Nat)
  | moduleWorker
  deriving DecidableEq

/-- What a publication is about. -/
inductive Origin
  | chat (src : Source)
  | notice (what : Notice) (lang : UiLang)
  deriving DecidableEq

/-- The message, where one is published. -/
def Origin.message (charSigned : Bool) (now : Int) : Origin → Option Message
  | .chat src => src.message charSigned now
  | .notice what lang => some (systemMessageMake now what lang)

/-- The steps of a publication. -/
inductive PubStep
  | start
  /-- `message_save` -/
  | save
  /-- `room_broadcast` -/
  | broadcast
  /-- `notify_mentions` -/
  | notify
  /-- `tnt_module_runtime_publish_message_created` -/
  | enqueue
  deriving DecidableEq

/-- The order of the calls in `handle_key`, `exec_command_post`, `publish_module_message`,
`input_run_session` and `commands_dispatch`. -/
def Origin.program : Origin → List PubStep
  | .chat (.insert _ _) => [.start, .save, .broadcast, .notify, .enqueue]
  | .chat (.post _ _) => [.start, .save, .broadcast, .notify, .enqueue]
  | .chat (.module _ _) => [.start, .save, .broadcast, .notify]
  | .notice _ _ => [.start, .broadcast, .save]

structure Publication where
  actor : Actor
  origin : Origin
  msg : Message
  deriving DecidableEq

structure Board where
  dir : LogDir
  /-- `g_room->messages` -/
  messages : List Message
  updateSeq : Nat
  /-- The queue of the module runtime. -/
  queue : List Message
  pubs : Jobs Publication PubStep
  /-- What `room_create` loaded. -/
  loaded : List Message

/-- `room_create`, as far as it concerns messages. -/
def Board.create (dir : LogDir) (now : Int) : Board :=
  ⟨dir, messageLoad dir MAX_MESSAGES now, 0, [], .init, messageLoad dir MAX_MESSAGES now⟩

/-- `room_add_message` -/
def roomAddMessage (messages : List Message) (msg : Message) : List Message :=
  if messages.length ≥ MAX_MESSAGES then (messages.drop 1).take (MAX_MESSAGES - 1) ++ [msg] else messages ++ [msg]

/-- `enqueue_message`, where `alloc` is whether the node can be allocated. -/
def enqueueMessage (running alloc : Bool) (queue : List Message) (msg : Message) : List Message :=
  if !running ∨ queue.length ≥ TNT_MODULE_QUEUE_LIMIT then queue
  else if !alloc then queue
  else queue ++ [msg]

/-- The thread is in the middle of a publication. -/
def Board.busy (b : Board) (actor : Actor) : Bool :=
  b.pubs.jobs.any fun j => j.info.actor == actor && j.todo != []

inductive BoardEvent
  | start (actor : Actor) (origin : Origin) (now : Int)
  | save (id : Nat) (env : SaveEnv)
  | broadcast (id : Nat)
  | notify (id : Nat)
  | enqueue (id : Nat) (alloc : Bool)
  | dequeue
  /-- The server is started anew, with the log as it is. -/
  | restart (now : Int)

def boardStep (charSigned running : Bool) (b : Board) : BoardEvent → Option Board
  | .start actor origin now =>
    if b.busy actor then none
    else (origin.message charSigned now).map fun msg =>
      { b with pubs := b.pubs.start ⟨actor, origin, msg⟩ .start origin.program.tail }
  | .save id env =>
    (b.pubs.next id .save).map fun j =>
      let (rc, dir) := messageSave j.info.msg env b.dir
      -- Chat that is not saved goes no further; a notice has nothing left to do.
      { b with dir := dir, pubs := if rc = 0 then b.pubs.take id j .save else b.pubs.fail id j .save }
  | .broadcast id =>
    (b.pubs.next id .broadcast).map fun j =>
      { b with
        messages := roomAddMessage b.messages j.info.msg
        updateSeq := b.updateSeq + 1
        pubs := b.pubs.take id j .broadcast }
  | .notify id => (b.pubs.next id .notify).map fun j => { b with pubs := b.pubs.take id j .notify }
  | .enqueue id alloc =>
    (b.pubs.next id .enqueue).map fun j =>
      { b with queue := enqueueMessage running alloc b.queue j.info.msg, pubs := b.pubs.take id j .enqueue }
  | .dequeue =>
    match b.queue with
    | [] => none
    | _ :: queue => some { b with queue := queue }
  | .restart now => some (.create b.dir now)

/-! ## Messages of users -/

/-- The name of the user that sends a message, and the text that is sent. -/
def Origin.userText (charSigned : Bool) : Origin → Option (CBuf MAX_USERNAME_LEN × Bytes)
  | .chat (.insert username input) => some (username, input.bytes)
  | .chat (.post sshLogin args) => some (resolveExecUsername charSigned sshLogin, trimAsciiWhitespace args)
  | _ => none

/-- A user's message is composed of the name and the text. -/
theorem userText_message {charSigned : Bool} {now : Int} {origin : Origin} {msg : Message}
    {author : CBuf MAX_USERNAME_LEN} {text : Bytes} (h : origin.userText charSigned = some (author, text))
    (hm : origin.message charSigned now = some msg) :
    msg = composeUserMessage now author.bytes text ∧ 0 ∉ text ∧ text.length < MAX_MESSAGE_LEN := by
  match origin, h with
  | .chat (.insert username input), h =>
    cases h
    exact ⟨(composeInsert_some hm).2, input.nul_free, input.fits⟩
  | .chat (.post sshLogin args), h =>
    cases h
    obtain ⟨-, htext, hlen, rfl⟩ := composePost_some hm
    exact ⟨rfl, valid_zero_notMem htext, hlen⟩

/-! ## What a step does -/

variable {charSigned running : Bool} {b b' : Board} {e : BoardEvent}

/-- A step starts a publication, saves one or fails to, shows one, or touches neither the log nor the
room; or the server starts anew. -/
inductive BoardEffect (charSigned : Bool) (b : Board) : BoardEvent → Board → Prop
  | started {actor : Actor} {origin : Origin} {now : Int} {msg : Message} (hidle : b.busy actor = false)
      (hmsg : origin.message charSigned now = some msg) :
    BoardEffect charSigned b (.start actor origin now)
      { b with pubs := b.pubs.start ⟨actor, origin, msg⟩ .start origin.program.tail }
  | saved {id : Nat} {env : SaveEnv} {j : Job Publication PubStep} {dir : LogDir}
      (hj : b.pubs.next id .save = some j) (hsave : messageSave j.info.msg env b.dir = (0, dir)) :
    BoardEffect charSigned b (.save id env) { b with dir := dir, pubs := b.pubs.take id j .save }
  | unsaved {id : Nat} {env : SaveEnv} {j : Job Publication PubStep} {rc : Int} {dir : LogDir}
      (hj : b.pubs.next id .save = some j) (hrc : rc ≠ 0) (hsave : messageSave j.info.msg env b.dir = (rc, dir)) :
    BoardEffect charSigned b (.save id env) { b with dir := dir, pubs := b.pubs.fail id j .save }
  | shown {id : Nat} {j : Job Publication PubStep} (hj : b.pubs.next id .broadcast = some j) :
    BoardEffect charSigned b (.broadcast id)
      { b with messages := roomAddMessage b.messages j.info.msg, updateSeq := b.updateSeq + 1,
               pubs := b.pubs.take id j .broadcast }
  | passed {be : BoardEvent} {id : Nat} {j : Job Publication PubStep} {k : PubStep} {queue : List Message}
      (hk : k = .notify ∨ k = .enqueue) (hj : b.pubs.next id k = some j) :
    BoardEffect charSigned b be { b with queue := queue, pubs := b.pubs.take id j k }
  | dequeued {m : Message} {queue : List Message} (hqueue : b.queue = m :: queue) :
    BoardEffect charSigned b .dequeue { b with queue := queue }
  | restarted (now : Int) : BoardEffect charSigned b (.restart now) (.create b.dir now)

theorem boardStep_effect (h : boardStep charSigned running b e = some b') : BoardEffect charSigned b e b' := by
  cases e with
  | start actor origin now =>
    simp only [boardStep, Option.ite_none_left_eq_some, Option.map_eq_some_iff] at h
    obtain ⟨hbusy, msg, hmsg, rfl⟩ := h
    exact .started (Bool.eq_false_iff.2 hbusy) hmsg
  | save id env =>
    simp only [boardStep, Option.map_eq_some_iff] at h
    obtain ⟨j, hj, rfl⟩ := h
    rcases hs : messageSave j.info.msg env b.dir with ⟨rc, dir⟩
    by_cases hrc : rc = 0
    · subst hrc
      exact .saved hj hs
    · dsimp only
      rw [if_neg hrc]
      exact .unsaved hj hrc hs
  | broadcast id =>
    simp only [boardStep, Option.map_eq_some_iff] at h
    obtain ⟨j, hj, rfl⟩ := h
    exact .shown hj
  | notify id =>
    simp only [boardStep, Option.map_eq_some_iff] at h
    obtain ⟨j, hj, rfl⟩ := h
    exact .passed (.inl rfl) hj
  | enqueue id alloc =>
    simp only [boardStep, Option.map_eq_some_iff] at h
    obtain ⟨j, hj, rfl⟩ := h
    exact .passed (.inr rfl) hj
  | dequeue =>
    simp only [boardStep] at h
    split at h <;> cases h
    exact .dequeued ‹_›
  | restart now =>
    cases h
    exact .restarted now

/-! ## The invariant -/

def Publication.program (p : Publication) : List PubStep := p.origin.program

theorem Publication.program_eq (p : Publication) : p.program = .start :: p.origin.program.tail := by
  obtain ⟨actor, ⟨⟨⟩⟩ | _, msg⟩ := p <;> rfl

/-- The room shows the newest of what it holds. -/
theorem roomAddMessage_rtake (l : List Message) (msg : Message) :
    roomAddMessage (l.rtake MAX_MESSAGES) msg = (l ++ [msg]).rtake MAX_MESSAGES := by
  rw [← slide_rtake l msg (by decide), slide_eq_take msg (length_rtake_le l), roomAddMessage]
  split
  · rw [if_neg (by omega)]
  · rw [if_pos (by omega)]

theorem length_messageLoad_le (dir : LogDir) (maxMessages : Nat) (now : Int) :
    (messageLoad dir maxMessages now).length ≤ maxMessages := by
  unfold messageLoad
  split
  · simp
  split
  · simp
  · exact List.length_take_le _ _

/-- The message is the one its origin made at some time. -/
def Publication.Composed (charSigned : Bool) (p : Publication) : Prop :=
  ∃ now, p.origin.message charSigned now = some p.msg

structure BoardInv (charSigned : Bool) (b : Board) : Prop where
  follows : b.pubs.Follows Publication.program
  /-- The room holds what was loaded and then shown. -/
  shown : b.messages =
    (b.loaded ++ (Jobs.took .broadcast b.pubs.history).map (·.2.msg)).rtake MAX_MESSAGES
  counted : b.updateSeq = (Jobs.took .broadcast b.pubs.history).length
  /-- Every publication is about the message composed for it. -/
  composed : ∀ j ∈ b.pubs.jobs, j.info.Composed charSigned

theorem boardInv_create (charSigned : Bool) (dir : LogDir) (now : Int) : BoardInv charSigned (.create dir now) where
  follows := Jobs.follows_init
  shown := by
    have hlen := length_messageLoad_le dir MAX_MESSAGES now
    simp only [Board.create, Jobs.init, Jobs.took, List.filterMap_nil, List.map_nil, List.append_nil, List.rtake]
    rw [Nat.sub_eq_zero_of_le hlen, List.drop_zero]
  counted := rfl
  composed j hj := by cases hj

theorem boardInv_step (hi : BoardInv charSigned b) (h : boardStep charSigned running b e = some b') :
    BoardInv charSigned b' := by
  obtain ⟨hfollows, hshown, hcounted, hcomposed⟩ := hi
  cases boardStep_effect h with
  | @started actor origin now msg hidle hmsg =>
    have hsame : Jobs.took .broadcast (b.pubs.start ⟨actor, origin, msg⟩ .start origin.program.tail).history =
        Jobs.took .broadcast b.pubs.history := Jobs.took_concat_ne _ (by simp)
    refine ⟨hfollows.start (Publication.program_eq _), by rw [hsame]; exact hshown, by rw [hsame]; exact hcounted, ?_⟩
    intro j hj
    rcases List.mem_append.1 hj with hj | hj
    · exact hcomposed j hj
    · exact List.mem_singleton.1 hj ▸ ⟨now, hmsg⟩
  | @saved id env j dir hj hsave =>
    have hsame : Jobs.took .broadcast (b.pubs.take id j .save).history = Jobs.took .broadcast b.pubs.history :=
      Jobs.took_concat_ne _ (by simp)
    exact ⟨hfollows.take hj, by rw [hsame]; exact hshown, by rw [hsame]; exact hcounted,
      Jobs.forall_info_set hcomposed (Jobs.next_some hj).1 _⟩
  | @unsaved id env j rc dir hj hrc hsave =>
    have hsame : Jobs.took .broadcast (b.pubs.fail id j .save).history = Jobs.took .broadcast b.pubs.history :=
      Jobs.took_concat_ne _ (by simp)
    exact ⟨hfollows.fail hj, by rw [hsame]; exact hshown, by rw [hsame]; exact hcounted,
      Jobs.forall_info_set hcomposed (Jobs.next_some hj).1 _⟩
  | @shown id j hj =>
    have hmore : Jobs.took .broadcast (b.pubs.take id j .broadcast).history =
        Jobs.took .broadcast b.pubs.history ++ [(id, j.info)] := Jobs.took_concat _ _ _ _
    refine ⟨hfollows.take hj, ?_, ?_, Jobs.forall_info_set hcomposed (Jobs.next_some hj).1 _⟩
    · rw [hmore, List.map_append, ← List.append_assoc, hshown]
      exact roomAddMessage_rtake _ _
    · rw [hmore, List.length_append, List.length_singleton, hcounted]
  | @passed e id j k queue hk hj =>
    have hsame : Jobs.took .broadcast (b.pubs.take id j k).history = Jobs.took .broadcast b.pubs.history :=
      Jobs.took_concat_ne _ (by rcases hk with rfl | rfl <;> simp)
    exact ⟨hfollows.take hj, by rw [hsame]; exact hshown, by rw [hsame]; exact hcounted,
      Jobs.forall_info_set hcomposed (Jobs.next_some hj).1 _⟩
  | dequeued hqueue => exact ⟨hfollows, hshown, hcounted, hcomposed⟩
  | restarted now => exact boardInv_create charSigned b.dir now

/-- What happened in the history is about a composed message. -/
theorem BoardInv.composed_entry (hi : BoardInv charSigned b) {x : Entry Publication PubStep}
    (hx : x ∈ b.pubs.history) : x.info.Composed charSigned := by
  obtain ⟨j, hj, hinfo⟩ := Option.map_eq_some_iff.1 (hi.follows.known x hx)
  exact hinfo ▸ hi.composed j (List.mem_of_getElem? hj)

end Tnt
