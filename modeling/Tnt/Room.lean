import Tnt.Lib.Arrays
import Tnt.Board
import Tnt.Capacity
import Tnt.Readers
/-!
# The arrays of the room (`chat_room.c`)

The room keeps its clients and its messages in two arrays of fixed size, each with a
count. `RoomArrays` is the code's room; what it is for is told by the list of clients
and by all that was ever said, and `room_refines` says that the arrays show just these.
-/
open BaseLib

namespace Tnt

/-- `chat_room_t`. A client is its address, and NULL is 0. -/
structure RoomArrays where
  clients : List Nat
  clientCount : Nat
  clientCapacity : Nat
  messages : List Message
  messageCount : Nat
  updateSeq : UInt64

namespace RoomArrays

/-- `room_create`; the messages are what `message_load` leaves in its array. -/
def create (env : Environment) (dir : LogDir) (now : Int) : RoomArrays :=
  let clientCapacity := (configEnvInt env TNT_CONFIG_MAX_CONNECTIONS).toNat
  let loaded := messageLoad dir MAX_MESSAGES now
  { clients := List.replicate clientCapacity 0
    clientCount := 0
    clientCapacity
    messages := loaded ++ List.replicate (MAX_MESSAGES - loaded.length) zeroMessage
    messageCount := loaded.length
    updateSeq := 0 }

/-- `room_add_client`, with what it returns. -/
def addClient (room : RoomArrays) (client : Nat) : RoomArrays × Int :=
  if room.clientCount ≥ room.clientCapacity then (room, -1)
  else
    ({ room with
      clients := room.clients.set room.clientCount client
      clientCount := room.clientCount + 1 }, 0)

/-- The loop of `room_remove_client` from `i` on, where `n` more clients are looked at. -/
def removeLoop (client : Nat) (room : RoomArrays) (i : Nat) : Nat → RoomArrays
  | 0 => room
  | n + 1 =>
    if room.clients[i]? = some client then
      { room with
        clients := shiftLoop (room.clientCount - 1 - i) i room.clients
        clientCount := room.clientCount - 1 }
    else removeLoop client room (i + 1) n

/-- `room_remove_client` -/
def removeClient (room : RoomArrays) (client : Nat) : RoomArrays := removeLoop client room 0 room.clientCount

/-- `room_add_message` -/
def addMessage (room : RoomArrays) (msg : Message) : RoomArrays :=
  let room :=
    if room.messageCount ≥ MAX_MESSAGES then
      { room with
        messages := memmove 0 1 (MAX_MESSAGES - 1) room.messages
        messageCount := MAX_MESSAGES - 1 }
    else room
  { room with
    messages := room.messages.set room.messageCount msg
    messageCount := room.messageCount + 1 }

/-- `room_broadcast` -/
def broadcast (room : RoomArrays) (msg : Message) : RoomArrays :=
  let room := room.addMessage msg
  { room with updateSeq := room.updateSeq + 1 }

end RoomArrays

/-- A call on the room. -/
inductive RoomCall
  | add (client : Nat)
  | remove (client : Nat)
  | broadcast (msg : Message)

def RoomArrays.call (room : RoomArrays) : RoomCall → RoomArrays
  | .add client => (room.addClient client).1
  | .remove client => room.removeClient client
  | .broadcast msg => room.broadcast msg

/-! ## What the room is for -/

/-- Who is there, in the order of joining, and what was said, with what was loaded in front of it. -/
structure RoomLog where
  clients : List Nat
  said : List Message
  broadcasts : Nat

def RoomLog.call (capacity : Nat) (log : RoomLog) : RoomCall → RoomLog
  | .add client => if log.clients.length < capacity then { log with clients := log.clients ++ [client] } else log
  | .remove client => { log with clients := log.clients.erase client }
  | .broadcast msg => { log with said := log.said ++ [msg], broadcasts := log.broadcasts + 1 }

namespace RoomArrays

/-- The cells of the arrays that count. -/
def chatRoom (room : RoomArrays) : ChatRoom := ⟨room.clients.take room.clientCount, room.clientCapacity⟩

def shown (room : RoomArrays) : List Message := room.messages.take room.messageCount

structure Sound (room : RoomArrays) : Prop where
  clients_room : room.clients.length = room.clientCapacity
  clients_le : room.clientCount ≤ room.clientCapacity
  messages_room : room.messages.length = MAX_MESSAGES
  messages_le : room.messageCount ≤ MAX_MESSAGES

variable {room : RoomArrays}

theorem Sound.length_clients (h : room.Sound) : room.chatRoom.clients.length = room.clientCount := by
  rw [chatRoom, List.length_take, h.clients_room, Nat.min_eq_left h.clients_le]

theorem Sound.length_shown (h : room.Sound) : room.shown.length = room.messageCount := by
  rw [shown, List.length_take, h.messages_room, Nat.min_eq_left h.messages_le]

/-! ## The operations on the arrays -/

/-- A client is appended, or there is no room. -/
theorem addClient_chatRoom (h : room.Sound) (client : Nat) :
    (room.addClient client).1.Sound ∧ (room.addClient client).1.shown = room.shown ∧
      (room.addClient client).1.updateSeq = room.updateSeq ∧
      (room.addClient client).1.chatRoom = (roomAddClient room.chatRoom client).getD room.chatRoom := by
  have hlen := h.length_clients
  unfold addClient roomAddClient
  by_cases hfull : room.clientCount ≥ room.clientCapacity
  · rw [if_pos hfull, if_pos (by rw [hlen]; exact Int.ofNat_le.2 hfull)]
    exact ⟨h, rfl, rfl, rfl⟩
  · rw [if_neg hfull, if_neg (by rw [hlen]; exact fun hle => hfull (Int.ofNat_le.1 hle))]
    have hroom : room.clientCount < room.clients.length := by
      rw [h.clients_room]
      omega
    refine ⟨⟨?_, by simp only; omega, h.messages_room, h.messages_le⟩, rfl, rfl, ?_⟩
    · simpa using h.clients_room
    · simp only [chatRoom, take_set_count hroom, Option.getD_some]

theorem chatRoom_getElem? {i : Nat} (hi : i < room.clientCount) : room.chatRoom.clients[i]? = room.clients[i]? :=
  List.getElem?_take_of_lt hi

/-- The loop takes out the first client from `i` on that is the one, or nobody. -/
theorem removeLoop_chatRoom (h : room.Sound) (client : Nat) {i n : Nat} (hn : i + n = room.clientCount)
    (hfront : ∀ c ∈ room.chatRoom.clients.take i, c ≠ client) :
    (removeLoop client room i n).Sound ∧ (removeLoop client room i n).shown = room.shown ∧
      (removeLoop client room i n).updateSeq = room.updateSeq ∧
      (removeLoop client room i n).chatRoom = roomRemoveClient room.chatRoom client := by
  induction n generalizing i with
  | zero =>
    have hall : room.chatRoom.clients.take i = room.chatRoom.clients :=
      List.take_of_length_le (by rw [h.length_clients]; omega)
    rw [hall] at hfront
    refine ⟨h, rfl, rfl, ?_⟩
    rw [roomRemoveClient, List.erase_of_not_mem fun hm => hfront client hm rfl]
    rfl
  | succ n ih =>
    have hi : i < room.clientCount := by omega
    have hcell := chatRoom_getElem? hi
    rw [removeLoop]
    split
    · rename_i hfound
      have hroom := h.clients_room
      have hle := h.clients_le
      refine ⟨⟨by simpa using hroom, by simp only; omega, h.messages_room, h.messages_le⟩, rfl, rfl, ?_⟩
      rw [roomRemoveClient, erase_eq_eraseIdx_of_first (hcell.trans hfound) hfront]
      simp only [chatRoom, take_shiftLoop hi (hroom ▸ hle)]
    · rename_i hother
      apply ih (by omega)
      intro c hc
      have hlen : i < room.chatRoom.clients.length := h.length_clients ▸ hi
      rw [List.take_succ_eq_append_getElem hlen, List.mem_append, List.mem_singleton] at hc
      rcases hc with hc | rfl
      · exact hfront c hc
      · rintro rfl
        exact hother (hcell ▸ List.getElem?_eq_getElem hlen)

theorem removeClient_chatRoom (h : room.Sound) (client : Nat) :
    (room.removeClient client).Sound ∧ (room.removeClient client).shown = room.shown ∧
      (room.removeClient client).updateSeq = room.updateSeq ∧
      (room.removeClient client).chatRoom = roomRemoveClient room.chatRoom client :=
  removeLoop_chatRoom h client (Nat.zero_add _) fun _ hc => by simp at hc

/-- Whoever is not in the room is not looked at twice: nothing is written. -/
theorem removeLoop_absent {client : Nat} {i n : Nat} (hn : i + n ≤ room.clientCount)
    (habsent : client ∉ room.chatRoom.clients) : removeLoop client room i n = room := by
  induction n generalizing i with
  | zero => rfl
  | succ n ih =>
    have hcell := @chatRoom_getElem? room i (by omega)
    rw [removeLoop, if_neg fun hfound => habsent (List.mem_of_getElem? (hcell.trans hfound))]
    exact ih (by omega)

/-- A message is shown behind the others, of which a full array loses the first. -/
theorem broadcast_shown (h : room.Sound) (msg : Message) :
    (room.broadcast msg).Sound ∧ (room.broadcast msg).shown = roomAddMessage room.shown msg ∧
      (room.broadcast msg).updateSeq = room.updateSeq + 1 ∧ (room.broadcast msg).chatRoom = room.chatRoom := by
  have hlen := h.length_shown
  have hroom := h.messages_room
  have hle := h.messages_le
  unfold broadcast addMessage roomAddMessage
  rw [hlen]
  by_cases hfull : room.messageCount ≥ MAX_MESSAGES
  · have hmoved : (memmove 0 1 (MAX_MESSAGES - 1) room.messages).length = MAX_MESSAGES := by
      rw [length_memmove (by rw [hroom]; decide) (by rw [hroom]; decide), hroom]
    have hcount : room.messageCount = MAX_MESSAGES := Nat.le_antisymm hle hfull
    simp only [if_pos hfull]
    refine ⟨⟨h.clients_room, h.clients_le, by simpa using hmoved, Nat.le_refl _⟩, ?_, trivial, rfl⟩
    have hrest : ((room.messages.take MAX_MESSAGES).drop 1).take (MAX_MESSAGES - 1) =
        (room.messages.take MAX_MESSAGES).tail := by
      rw [List.drop_one, List.take_of_length_le (by rw [List.length_tail, List.length_take, hroom]; decide)]
    rw [shown, take_set_count (by rw [hmoved]; decide), take_memmove hroom.ge, shown, hcount, hrest]
  · simp only [if_neg hfull]
    refine ⟨⟨h.clients_room, h.clients_le, by simpa using hroom, Nat.lt_of_not_le hfull⟩, ?_, trivial, rfl⟩
    rw [shown, take_set_count (by omega), shown]

end RoomArrays

/-! ## Runs -/

/-- The arrays show the clients that are there and the newest messages of all that was said. -/
structure RoomArrays.Shows (room : RoomArrays) (capacity : Nat) (log : RoomLog) : Prop where
  sound : room.Sound
  chatRoom : room.chatRoom = ⟨log.clients, capacity⟩
  messages : room.shown = log.said.rtake MAX_MESSAGES
  updateSeq : room.updateSeq = UInt64.ofNat log.broadcasts

theorem shows_create (env : Environment) (dir : LogDir) (now : Int) :
    (RoomArrays.create env dir now).Shows (configEnvInt env TNT_CONFIG_MAX_CONNECTIONS).toNat
      ⟨[], messageLoad dir MAX_MESSAGES now, 0⟩ := by
  have hlen := length_messageLoad_le dir MAX_MESSAGES now
  refine ⟨⟨List.length_replicate, Nat.zero_le _, ?_, hlen⟩, rfl, ?_, rfl⟩
  · simp only [RoomArrays.create, List.length_append, List.length_replicate]
    omega
  · simp only [RoomArrays.shown, RoomArrays.create, List.take_left, List.rtake]
    rw [Nat.sub_eq_zero_of_le hlen, List.drop_zero]

/-- One call on the arrays is the call on what they show. -/
theorem shows_call {room : RoomArrays} {capacity : Nat} {log : RoomLog} (h : room.Shows capacity log) (c : RoomCall) :
    (room.call c).Shows capacity (log.call capacity c) := by
  obtain ⟨hsound, hroom, hmessages, hseq⟩ := h
  cases c with
  | add client =>
    obtain ⟨hsound', hshown, hseq', hadd⟩ := RoomArrays.addClient_chatRoom hsound client
    refine ⟨hsound', ?_, ?_, ?_⟩
    · rw [RoomArrays.call, hadd, hroom, roomAddClient, RoomLog.call]
      by_cases hfull : log.clients.length < capacity
      · rw [if_pos hfull, if_neg (by simpa using hfull)]
        rfl
      · rw [if_neg hfull, if_pos (by simpa using hfull)]
        rfl
    · rw [RoomArrays.call, hshown, hmessages, RoomLog.call]
      split <;> rfl
    · rw [RoomArrays.call, hseq', hseq, RoomLog.call]
      split <;> rfl
  | remove client =>
    obtain ⟨hsound', hshown, hseq', hremove⟩ := RoomArrays.removeClient_chatRoom hsound client
    refine ⟨hsound', ?_, hshown.trans hmessages, hseq'.trans hseq⟩
    rw [RoomArrays.call, hremove, hroom]
    rfl
  | broadcast msg =>
    obtain ⟨hsound', hshown, hseq', hroom'⟩ := RoomArrays.broadcast_shown hsound msg
    refine ⟨hsound', hroom'.trans hroom, ?_, ?_⟩
    · rw [RoomArrays.call, hshown, hmessages, roomAddMessage_rtake]
      rfl
    · rw [RoomArrays.call, hseq', hseq, RoomLog.call, UInt64.ofNat_add]
      rfl

/-- Any calls on the arrays are the calls on what they show. -/
theorem shows_calls {room : RoomArrays} {capacity : Nat} {log : RoomLog} (h : room.Shows capacity log)
    (cs : List RoomCall) : (cs.foldl RoomArrays.call room).Shows capacity (cs.foldl (RoomLog.call capacity) log) := by
  induction cs generalizing room log with
  | nil => exact h
  | cons c cs ih => exact ih (shows_call h c)

/-- The clients that are added, in their order. -/
def RoomCall.added : RoomCall → Option Nat
  | add client => some client
  | _ => none

/-- Whoever is there was added, and in this order. -/
theorem clients_sublist (capacity : Nat) (cs : List RoomCall) (log : RoomLog) :
    (cs.foldl (RoomLog.call capacity) log).clients.Sublist (log.clients ++ cs.filterMap RoomCall.added) := by
  induction cs generalizing log with
  | nil => simp
  | cons c cs ih =>
    apply (ih _).trans
    cases c with
    | add client =>
      rw [RoomLog.call]
      split
      · have hadded : (RoomCall.add client :: cs).filterMap RoomCall.added = client :: cs.filterMap RoomCall.added :=
          rfl
        rw [hadded, List.append_assoc, List.singleton_append]
      · exact (List.Sublist.refl _).append (List.sublist_cons_self _ _)
    | remove client => exact List.erase_sublist.append (List.Sublist.refl _)
    | broadcast msg => exact List.Sublist.refl _

/-- The room does what it is for. Its arrays show the clients in the order of joining and the newest messages of
those loaded and those said, each count is within its bound, and a call that has nothing to do does nothing. -/
theorem room_refines (env : Environment) (dir : LogDir) (now : Int) (cs : List RoomCall) :
    let capacity := (configEnvInt env TNT_CONFIG_MAX_CONNECTIONS).toNat
    let room := cs.foldl RoomArrays.call (.create env dir now)
    let log := cs.foldl (RoomLog.call capacity) ⟨[], messageLoad dir MAX_MESSAGES now, 0⟩
    room.clients.take room.clientCount = log.clients ∧
      room.messages.take room.messageCount = log.said.rtake MAX_MESSAGES ∧
      room.updateSeq = UInt64.ofNat log.broadcasts ∧
      room.clientCount ≤ capacity ∧ room.messageCount ≤ MAX_MESSAGES ∧
      room.clientCount = log.clients.length ∧ room.messageCount = min MAX_MESSAGES log.said.length ∧
      ((cs.filterMap RoomCall.added).Nodup → log.clients.Nodup) ∧
      (∀ client, room.clientCount = capacity → room.addClient client = (room, -1)) ∧
      (∀ client, client ∉ log.clients → room.removeClient client = room) := by
  intro capacity room log
  obtain ⟨hsound, hroom, hmessages, hseq⟩ := shows_calls (shows_create env dir now) cs
  have hclients : room.clients.take room.clientCount = log.clients := congrArg ChatRoom.clients hroom
  have hcapacity : room.clientCapacity = capacity := Int.ofNat.inj (congrArg ChatRoom.clientCapacity hroom)
  have hcount := hsound.length_clients
  have hshown := hsound.length_shown
  refine ⟨hclients, hmessages, hseq, hcapacity ▸ hsound.clients_le, hsound.messages_le, ?_, ?_, ?_, ?_, ?_⟩
  · rw [← hcount, ← hclients]
    rfl
  · rw [← hshown, hmessages, List.rtake, List.length_drop]
    exact (Nat.sub_sub_eq_min _ _).trans (Nat.min_comm _ _)
  · exact fun hnodup => (clients_sublist capacity cs _).nodup hnodup
  · intro client hfull
    unfold RoomArrays.addClient
    rw [if_pos (by omega)]
  · intro client habsent
    rw [← hclients] at habsent
    exact RoomArrays.removeLoop_absent (by omega) habsent

end Tnt
