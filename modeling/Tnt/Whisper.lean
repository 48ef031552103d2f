import Tnt.Lib.Runs
import Tnt.Names
/-!
# Private messages (`commands.c`)

A private message is sent in steps that other sessions get between: its target is
looked up in the room by name, it is put in the target's inbox, and a copy of it
in the sender's. `:reply` takes the name from the client's last private message.

The model keeps a record of whom each client last exchanged a private message
with, as a client and not as a name, and with every message in an inbox what sent
it. Nothing depends on these records.
-/
open BaseLib

namespace Tnt

def WHISPER_INBOX_SIZE : Nat := 16

/-- `whisper_t` -/
structure Whisper where
  timestamp : Int
  sender : CBuf MAX_USERNAME_LEN
  recipient : CBuf MAX_USERNAME_LEN
  content : CBuf MAX_MESSAGE_LEN
  outgoing : Bool
  unread : Bool
  deriving DecidableEq

/-- The command behind a private message. -/
inductive WhisperKind
  | msg
  /-- `:reply`, issued when `peer` was the client's counterparty. -/
  | reply (peer : Option Nat)
  deriving DecidableEq

/-- The counterparty on record for a reply. -/
def WhisperKind.counterparty : WhisperKind → Option Nat
  | msg => none
  | reply peer => peer

/-- How far `send_private_message` has come. -/
inductive SendStage
  | lookup
  /-- The target is found. -/
  | deliver (target : Nat)
  /-- It has the message; the sender's copy is still to make. -/
  | copy (target : Nat)
  deriving DecidableEq

structure Sending where
  kind : WhisperKind
  targetName : CBuf MAX_USERNAME_LEN
  content : Bytes
  stage : SendStage
  deriving DecidableEq

/-- A message in an inbox, with what sent it. -/
structure Stored where
  whisper : Whisper
  kind : WhisperKind
  deriving DecidableEq

/-- The fields of `client_t` that private messages use, with the record of the counterparty and
the private message the client is sending. -/
structure WhisperClient where
  username : CBuf MAX_USERNAME_LEN
  whisperInbox : List Stored
  unreadWhispers : Nat
  lastWhisperPeer : CBuf MAX_USERNAME_LEN
  peer : Option Nat
  sending : Option Sending

/-- Every client there ever was, by its number, and `g_room->clients`. -/
structure WhisperRoom where
  clients : List WhisperClient
  room : List Nat

def WhisperRoom.init : WhisperRoom := ⟨[], []⟩

/-- `client_append_whisper`, where `peer` is the client at the other end. -/
def clientAppendWhisper (owner : WhisperClient) (kind : WhisperKind) (peer : Nat) (now : Int)
    (sender recipient : CBuf MAX_USERNAME_LEN) (content : Bytes) (outgoing countUnread : Bool) : WhisperClient :=
  let inbox := if owner.whisperInbox.length < WHISPER_INBOX_SIZE then owner.whisperInbox else owner.whisperInbox.tail
  { owner with
    whisperInbox := inbox ++
      [⟨⟨now, sender, recipient, CBuf.copy MAX_MESSAGE_LEN content, outgoing, countUnread⟩, kind⟩]
    lastWhisperPeer := if outgoing then recipient else sender
    peer := some peer
    unreadWhispers := if countUnread then owner.unreadWhispers + 1 else owner.unreadWhispers }

/-- `clear_inbox` -/
def clearInbox (c : WhisperClient) : WhisperClient :=
  { c with whisperInbox := [], unreadWhispers := 0, lastWhisperPeer := CBuf.copy MAX_USERNAME_LEN [] }

/-- `append_inbox_output`, as far as it changes the inbox. -/
def viewInbox (c : WhisperClient) : WhisperClient :=
  { c with
    whisperInbox := c.whisperInbox.map fun x => { x with whisper := { x.whisper with unread := false } }
    unreadWhispers := 0 }

/-- The two arguments of `:msg`. -/
def msgArgs (arg : Bytes) : Option (CBuf MAX_USERNAME_LEN × Bytes) :=
  let rest := arg.dropWhile (· == 0x20)
  let targetName := (rest.takeWhile (· != 0x20)).take (MAX_USERNAME_LEN - 1)
  let rest := (rest.drop targetName.length).dropWhile (· == 0x20)
  if targetName = [] ∨ rest = [] then none else some (CBuf.copy MAX_USERNAME_LEN targetName, rest)

inductive WhisperEvent
  /-- A client joins the room under the name it chose from what it typed. -/
  | join (typed : CBuf MAX_USERNAME_LEN)
  | leave (i : Nat)
  | nick (i : Nat) (arg : Bytes)
  | msg (i : Nat) (arg : Bytes)
  | reply (i : Nat) (arg : Bytes)
  | inbox (i : Nat)
  | inboxClear (i : Nat)
  /-- The steps of `send_private_message`. -/
  | lookup (i : Nat)
  | deliver (i : Nat) (now : Int)
  | copy (i : Nat) (now : Int)

namespace WhisperRoom

def username (s : WhisperRoom) (i : Nat) : Option (CBuf MAX_USERNAME_LEN) := s.clients[i]?.map (·.username)

/-- `strcmp(g_room->clients[i]->username, name) == 0` -/
def isNamed (s : WhisperRoom) (name : CBuf MAX_USERNAME_LEN) (i : Nat) : Bool := s.username i == some name

def put (s : WhisperRoom) (i : Nat) (c : WhisperClient) : WhisperRoom := { s with clients := s.clients.set i c }

end WhisperRoom

/-- The `:nick` branch of `commands_dispatch`, for a client of the room. -/
def nickChange (charSigned : Bool) (s : WhisperRoom) (i : Nat) (c : WhisperClient) (arg : Bytes) : WhisperClient :=
  match validatedName charSigned arg with
  | .error _ => c
  | .ok name =>
    let taken := name != c.username && s.room.any fun j => j != i && s.isNamed name j
    if taken then c else { c with username := name }

/-- A client of the room that is not in the middle of a command. -/
def WhisperRoom.idle (s : WhisperRoom) (i : Nat) : Option WhisperClient :=
  if i ∈ s.room then s.clients[i]?.filter (·.sending.isNone) else none

def whisperStep (charSigned : Bool) (capacity : Nat) (s : WhisperRoom) : WhisperEvent → Option WhisperRoom
  | .join typed =>
    let c : WhisperClient :=
      ⟨chooseUsername charSigned typed, [], 0, CBuf.copy MAX_USERNAME_LEN [], none, none⟩
    -- `room_add_client`
    if s.room.length ≥ capacity then some s else some ⟨s.clients ++ [c], s.room ++ [s.clients.length]⟩
  | .leave i => (s.idle i).map fun _ => { s with room := s.room.erase i }
  | .nick i arg => (s.idle i).map fun c => s.put i (nickChange charSigned s i c arg)
  | .msg i arg =>
    (s.idle i).map fun c =>
      match msgArgs arg with
      | none => s
      | some (targetName, content) => s.put i { c with sending := some ⟨.msg, targetName, content, .lookup⟩ }
  | .reply i arg =>
    (s.idle i).map fun c =>
      let message := arg.dropWhile (· == 0x20)
      if message = [] then s
      -- `I18N_REPLY_NO_TARGET`
      else if c.lastWhisperPeer.bytes = [] then s
      else s.put i { c with sending := some ⟨.reply c.peer, c.lastWhisperPeer, message, .lookup⟩ }
  | .inbox i => (s.idle i).map fun c => s.put i (viewInbox c)
  | .inboxClear i => (s.idle i).map fun c => s.put i (clearInbox c)
  | .lookup i =>
    s.clients[i]?.bind fun c => c.sending.bind fun x =>
      match x.stage with
      | .lookup =>
        match s.room.find? (s.isNamed x.targetName) with
        | none => some (s.put i { c with sending := none })
        | some target => some (s.put i { c with sending := some { x with stage := .deliver target } })
      | _ => none
  | .deliver i now =>
    s.clients[i]?.bind fun c => c.sending.bind fun x =>
      match x.stage with
      | .deliver target =>
        s.clients[target]?.map fun t =>
          let t := clientAppendWhisper t x.kind i now c.username x.targetName x.content false true
          if target = i then s.put i { t with sending := none }
          else (s.put target t).put i { c with sending := some { x with stage := .copy target } }
      | _ => none
  | .copy i now =>
    s.clients[i]?.bind fun c => c.sending.bind fun x =>
      match x.stage with
      | .copy target =>
        some (s.put i
          { clientAppendWhisper c x.kind target now c.username x.targetName x.content true false with sending := none })
      | _ => none

/-! ## What a step does -/

theorem idle_some {s : WhisperRoom} {i : Nat} {c : WhisperClient} (h : s.idle i = some c) :
    s.clients[i]? = some c := by
  unfold WhisperRoom.idle at h
  split at h
  · exact (Option.filter_eq_some_iff.1 h).1
  · cases h

/-- A rename changes the name, or nothing. -/
theorem nickChange_eq (charSigned : Bool) (s : WhisperRoom) (i : Nat) (c : WhisperClient) (arg : Bytes) :
    ∃ name, nickChange charSigned s i c arg = { c with username := name } := by
  unfold nickChange
  split
  · exact ⟨c.username, rfl⟩
  · dsimp only
    split
    · exact ⟨c.username, rfl⟩
    · exact ⟨_, rfl⟩

/-- What one event does to the room and the clients. -/
inductive WhisperEffect (charSigned : Bool) (s : WhisperRoom) : WhisperEvent → WhisperRoom → Prop
  | refused (typed : CBuf MAX_USERNAME_LEN) : WhisperEffect charSigned s (.join typed) s
  | joined (typed : CBuf MAX_USERNAME_LEN) :
    WhisperEffect charSigned s (.join typed)
      ⟨s.clients ++ [⟨chooseUsername charSigned typed, [], 0, CBuf.copy MAX_USERNAME_LEN [], none, none⟩],
        s.room ++ [s.clients.length]⟩
  | left (i : Nat) : WhisperEffect charSigned s (.leave i) { s with room := s.room.erase i }
  | renamed {i : Nat} {c : WhisperClient} (arg : Bytes) (hc : s.clients[i]? = some c) :
    WhisperEffect charSigned s (.nick i arg) (s.put i (nickChange charSigned s i c arg))
  /-- `:msg` without a text. -/
  | noMsg (i : Nat) (arg : Bytes) : WhisperEffect charSigned s (.msg i arg) s
  | msg {i : Nat} {c : WhisperClient} {arg content : Bytes} {name : CBuf MAX_USERNAME_LEN}
      (hc : s.clients[i]? = some c) (hargs : msgArgs arg = some (name, content)) :
    WhisperEffect charSigned s (.msg i arg) (s.put i { c with sending := some ⟨.msg, name, content, .lookup⟩ })
  /-- A reply without a text, or to nobody. -/
  | noReply (i : Nat) (arg : Bytes) : WhisperEffect charSigned s (.reply i arg) s
  | reply {i : Nat} {c : WhisperClient} (arg : Bytes) (hc : s.clients[i]? = some c)
      (hname : c.lastWhisperPeer.bytes ≠ []) :
    WhisperEffect charSigned s (.reply i arg) (s.put i { c with
      sending := some ⟨.reply c.peer, c.lastWhisperPeer, arg.dropWhile (· == 0x20), .lookup⟩ })
  | viewed {i : Nat} {c : WhisperClient} (hc : s.clients[i]? = some c) :
    WhisperEffect charSigned s (.inbox i) (s.put i (viewInbox c))
  | cleared {i : Nat} {c : WhisperClient} (hc : s.clients[i]? = some c) :
    WhisperEffect charSigned s (.inboxClear i) (s.put i (clearInbox c))
  | notFound {i : Nat} {c : WhisperClient} {x : Sending} (hc : s.clients[i]? = some c) (hx : c.sending = some x)
      (hstage : x.stage = .lookup) (hfind : s.room.find? (s.isNamed x.targetName) = none) :
    WhisperEffect charSigned s (.lookup i) (s.put i { c with sending := none })
  | found {i target : Nat} {c : WhisperClient} {x : Sending} (hc : s.clients[i]? = some c) (hx : c.sending = some x)
      (hstage : x.stage = .lookup) (hfind : s.room.find? (s.isNamed x.targetName) = some target) :
    WhisperEffect charSigned s (.lookup i) (s.put i { c with sending := some { x with stage := .deliver target } })
  /-- To oneself: no copy follows. -/
  | kept {i : Nat} {c : WhisperClient} {x : Sending} (now : Int) (hc : s.clients[i]? = some c)
      (hx : c.sending = some x) (hstage : x.stage = .deliver i) :
    WhisperEffect charSigned s (.deliver i now) (s.put i
      { clientAppendWhisper c x.kind i now c.username x.targetName x.content false true with sending := none })
  | delivered {i target : Nat} {c t : WhisperClient} {x : Sending} (now : Int) (hc : s.clients[i]? = some c)
      (hx : c.sending = some x) (hstage : x.stage = .deliver target) (ht : s.clients[target]? = some t)
      (hne : target ≠ i) :
    WhisperEffect charSigned s (.deliver i now)
      ((s.put target (clientAppendWhisper t x.kind i now c.username x.targetName x.content false true)).put i
        { c with sending := some { x with stage := .copy target } })
  | copied {i target : Nat} {c : WhisperClient} {x : Sending} (now : Int) (hc : s.clients[i]? = some c)
      (hx : c.sending = some x) (hstage : x.stage = .copy target) :
    WhisperEffect charSigned s (.copy i now) (s.put i
      { clientAppendWhisper c x.kind target now c.username x.targetName x.content true false with sending := none })

theorem whisperStep_effect {charSigned : Bool} {capacity : Nat} {s s' : WhisperRoom} {e : WhisperEvent}
    (h : whisperStep charSigned capacity s e = some s') : WhisperEffect charSigned s e s' := by
  cases e with
  | join typed =>
    simp only [whisperStep] at h
    split at h <;> cases h
    · exact .refused typed
    · exact .joined typed
  | leave i =>
    simp only [whisperStep, Option.map_eq_some_iff] at h
    obtain ⟨c, -, rfl⟩ := h
    exact .left i
  | nick i arg =>
    simp only [whisperStep, Option.map_eq_some_iff] at h
    obtain ⟨c, hc, rfl⟩ := h
    exact .renamed arg (idle_some hc)
  | msg i arg =>
    simp only [whisperStep, Option.map_eq_some_iff] at h
    obtain ⟨c, hc, rfl⟩ := h
    split
    · exact .noMsg i arg
    · rename_i hargs
      exact .msg (idle_some hc) hargs
  | reply i arg =>
    simp only [whisperStep, Option.map_eq_some_iff] at h
    obtain ⟨c, hc, rfl⟩ := h
    split
    · exact .noReply i arg
    split
    · exact .noReply i arg
    · rename_i hname
      exact .reply arg (idle_some hc) hname
  | inbox i =>
    simp only [whisperStep, Option.map_eq_some_iff] at h
    obtain ⟨c, hc, rfl⟩ := h
    exact .viewed (idle_some hc)
  | inboxClear i =>
    simp only [whisperStep, Option.map_eq_some_iff] at h
    obtain ⟨c, hc, rfl⟩ := h
    exact .cleared (idle_some hc)
  | lookup i =>
    simp only [whisperStep, Option.bind_eq_some_iff] at h
    obtain ⟨c, hc, x, hx, h⟩ := h
    split at h
    · rename_i hstage
      split at h <;> cases h
      · rename_i hfind
        exact .notFound hc hx hstage hfind
      · rename_i hfind
        exact .found hc hx hstage hfind
    · cases h
  | deliver i now =>
    simp only [whisperStep, Option.bind_eq_some_iff] at h
    obtain ⟨c, hc, x, hx, h⟩ := h
    split at h
    · rename_i target hstage
      obtain ⟨t, ht, rfl⟩ := Option.map_eq_some_iff.1 h
      split
      · rename_i hself
        subst hself
        obtain rfl := Option.some.inj (hc.symm.trans ht)
        exact .kept now hc hx hstage
      · rename_i hne
        exact .delivered now hc hx hstage ht hne
    · cases h
  | copy i now =>
    simp only [whisperStep, Option.bind_eq_some_iff] at h
    obtain ⟨c, hc, x, hx, h⟩ := h
    split at h <;> cases h
    rename_i target hstage
    exact .copied now hc hx hstage

/-! ## The invariant -/

/-- What is true of client `i`: replies that reached it were meant for it, and one that it is about
to deliver goes to its counterparty. -/
structure ClientInv (i : Nat) (c : WhisperClient) : Prop where
  named : c.lastWhisperPeer.bytes ≠ [] → c.peer ≠ none
  stored : ∀ x ∈ c.whisperInbox, x.whisper.outgoing = false → ∀ p, x.kind = .reply p → p = some i
  answers : ∀ x, c.sending = some x → x.kind ≠ .reply none
  delivers : ∀ x t, c.sending = some x → x.stage = .deliver t → ∀ p, x.kind = .reply p → p = some t

def WhisperInv (s : WhisperRoom) : Prop := ∀ i c, s.clients[i]? = some c → ClientInv i c

/-- When a reply looks up this name for this counterparty: nobody in the room bears the name, or the
counterparty does and nobody who stands in front of it. -/
def WhisperRoom.PeerStands (s : WhisperRoom) (name : CBuf MAX_USERNAME_LEN) (peer : Nat) : Prop :=
  (∀ j ∈ s.room, s.isNamed name j = false) ∨
    ∃ front back, s.room = front ++ peer :: back ∧ s.isNamed name peer = true ∧
      ∀ j ∈ front, s.isNamed name j = false

/-- The step is not the lookup of a reply, or the counterparty stands. -/
def RepliesMeetPeer (s : WhisperRoom) : WhisperEvent → Prop
  | .lookup i => ∀ c ∈ s.clients[i]?, ∀ x ∈ c.sending, x.stage = .lookup →
      ∀ peer ∈ x.kind.counterparty, s.PeerStands x.targetName peer
  | _ => True

/-- A lookup can go wrong in no other case. -/
theorem peerStands_iff {s : WhisperRoom} {name : CBuf MAX_USERNAME_LEN} {peer : Nat} :
    s.PeerStands name peer ↔ ∀ t, s.room.find? (s.isNamed name) = some t → t = peer := by
  constructor
  · rintro (hnone | ⟨front, back, hroom, hpeer, hfront⟩) t ht
    · rw [List.find?_eq_none.2 fun j hj => by simp [hnone j hj]] at ht
      cases ht
    · rw [List.find?_eq_some_iff_append.2 ⟨hpeer, front, back, hroom, fun j hj => by simp [hfront j hj]⟩] at ht
      exact (Option.some.inj ht).symm
  · intro h
    cases hf : s.room.find? (s.isNamed name) with
    | none => exact .inl fun j hj => by simpa using List.find?_eq_none.1 hf j hj
    | some t =>
      obtain rfl := h t hf
      obtain ⟨ht, front, back, hroom, hfront⟩ := List.find?_eq_some_iff_append.1 hf
      exact .inr ⟨front, back, hroom, ht, fun j hj => by simpa using hfront j hj⟩

instance (s : WhisperRoom) (name : CBuf MAX_USERNAME_LEN) (peer : Nat) : Decidable (s.PeerStands name peer) :=
  decidable_of_iff (∀ t ∈ s.room.find? (s.isNamed name), t = peer) peerStands_iff.symm

instance (s : WhisperRoom) : (e : WhisperEvent) → Decidable (RepliesMeetPeer s e)
  | .lookup i => inferInstanceAs (Decidable (∀ c ∈ s.clients[i]?, ∀ x ∈ c.sending, x.stage = .lookup →
      ∀ peer ∈ x.kind.counterparty, s.PeerStands x.targetName peer))
  | .join _ | .leave _ | .nick _ _ | .msg _ _ | .reply _ _ | .inbox _ | .inboxClear _ | .deliver _ _ | .copy _ _ =>
    .isTrue trivial

/-- What is true of every client stays true when one client is replaced. -/
theorem WhisperRoom.forall_put {P : Nat → WhisperClient → Prop} {s : WhisperRoom}
    (h : ∀ i c, s.clients[i]? = some c → P i c) {i : Nat} {c : WhisperClient} (hc : P i c) :
    ∀ j d, (s.put i c).clients[j]? = some d → P j d := by
  intro j d hd
  rw [WhisperRoom.put, List.getElem?_set] at hd
  split at hd
  · rename_i hij
    split at hd <;> cases hd
    exact hij ▸ hc
  · exact h j d hd

theorem WhisperInv.put {s : WhisperRoom} (h : WhisperInv s) {i : Nat} {c : WhisperClient} (hc : ClientInv i c) :
    WhisperInv (s.put i c) := WhisperRoom.forall_put h hc

/-- Appending keeps the invariant when a reply comes in at its counterparty alone. -/
theorem ClientInv.append {i : Nat} {c : WhisperClient} (h : ClientInv i c) {kind : WhisperKind} (peer : Nat)
    (now : Int) (sender recipient : CBuf MAX_USERNAME_LEN) (content : Bytes) (outgoing countUnread : Bool)
    (hkind : outgoing = false → ∀ p, kind = .reply p → p = some i) :
    ClientInv i (clientAppendWhisper c kind peer now sender recipient content outgoing countUnread) where
  named _ := by simp [clientAppendWhisper]
  stored x hx ho p hp := by
    rcases List.mem_append.1 hx with hx | hx
    · refine h.stored x ?_ ho p hp
      split at hx
      · exact hx
      · exact List.mem_of_mem_tail hx
    · obtain rfl := List.mem_singleton.1 hx
      exact hkind ho p hp
  answers := h.answers
  delivers := h.delivers

theorem ClientInv.done {i : Nat} {c : WhisperClient} (h : ClientInv i c) :
    ClientInv i { c with sending := none } :=
  ⟨h.named, h.stored, fun _ hx => by simp at hx, fun _ _ hx => by simp at hx⟩

theorem ClientInv.sends {i : Nat} {c : WhisperClient} (h : ClientInv i c) {x : Sending}
    (hkind : x.kind ≠ .reply none) (hstage : ∀ t, x.stage = .deliver t → ∀ p, x.kind = .reply p → p = some t) :
    ClientInv i { c with sending := some x } where
  named := h.named
  stored := h.stored
  answers _ hy := Option.some.inj hy ▸ hkind
  delivers _ t hy := Option.some.inj hy ▸ hstage t

/-- One step, whichever it is, keeps the invariant. -/
theorem whisperInv_step {charSigned : Bool} {capacity : Nat} {s s' : WhisperRoom} {e : WhisperEvent}
    (h : WhisperInv s) (he : RepliesMeetPeer s e) (hs : whisperStep charSigned capacity s e = some s') :
    WhisperInv s' := by
  cases whisperStep_effect hs with
  | refused | left | noMsg | noReply => exact h
  | joined typed =>
    intro j d hd
    rw [List.getElem?_append] at hd
    split at hd
    · exact h j d hd
    · obtain rfl := List.mem_singleton.1 (List.mem_of_getElem? hd)
      exact ⟨fun hne => absurd rfl hne, by simp, by simp, by simp⟩
  | @renamed i c arg hc =>
    have hi := h i c hc
    obtain ⟨name, hname⟩ := nickChange_eq charSigned s i c arg
    rw [hname]
    exact h.put ⟨hi.named, hi.stored, hi.answers, hi.delivers⟩
  | msg hc hargs => exact h.put ((h _ _ hc).sends (by simp) (by simp))
  | reply arg hc hname =>
    have hi := h _ _ hc
    exact h.put (hi.sends (by simpa using hi.named hname) (by simp))
  | viewed hc =>
    have hi := h _ _ hc
    refine h.put ⟨hi.named, fun x hx => ?_, hi.answers, hi.delivers⟩
    obtain ⟨y, hy, rfl⟩ := List.mem_map.1 hx
    exact hi.stored y hy
  | cleared hc =>
    have hi := h _ _ hc
    exact h.put ⟨fun hne => absurd rfl hne, by simp [clearInbox], hi.answers, hi.delivers⟩
  | notFound hc hx hstage hfind => exact h.put (h _ _ hc).done
  | @found i target c x hc hx hstage hfind =>
    have hi := h i c hc
    refine h.put (hi.sends (hi.answers x hx) fun t ht p hp => ?_)
    -- The room was searched for the name; the counterparty is who stands there.
    cases ht
    cases p with
    | none => exact absurd hp (hi.answers x hx)
    | some peer =>
      have hpeer : s.PeerStands x.targetName peer := he c hc x hx hstage peer (by rw [hp]; rfl)
      rw [peerStands_iff.1 hpeer target hfind]
  | @kept i c x now hc hx hstage =>
    have hi := h i c hc
    exact h.put (hi.append i now c.username x.targetName x.content false true fun _ => hi.delivers x i hx hstage).done
  | @delivered i target c t x now hc hx hstage ht hne =>
    have hi := h i c hc
    have htarget := (h target t ht).append i now c.username x.targetName x.content false
      true fun _ => hi.delivers x target hx hstage
    exact (h.put htarget).put (hi.sends (hi.answers x hx) (by simp))
  | @copied i target c x now hc hx hstage =>
    exact h.put ((h i c hc).append target now c.username x.targetName x.content true false
      (fun ho => by cases ho)).done

/-! ## Replies -/

/-- In a run in which the counterparty stands at every lookup of a reply, each inbox holds the
replies to its own client alone. -/
theorem reply_reaches_peer (charSigned : Bool) (capacity : Nat) (es : List WhisperEvent) (s : WhisperRoom)
    (hmeets : Meets (whisperStep charSigned capacity) RepliesMeetPeer .init es)
    (hrun : exec (whisperStep charSigned capacity) .init es = some s) (i : Nat) (c : WhisperClient)
    (hc : s.clients[i]? = some c) :
    ∀ x ∈ c.whisperInbox, x.whisper.outgoing = false → ∀ peer, x.kind = .reply peer → peer = some i :=
  have hinit : WhisperInv .init := fun _ _ h => by simp [WhisperRoom.init] at h
  (exec_inv_of_meets WhisperInv (fun _ _ _ h he hs => whisperInv_step h he hs) hinit hmeets hrun i c hc).stored

/-- `ann` writes to `bob`, who answers. -/
def answered : List WhisperEvent :=
  [.join (CBuf.copy _ (lit "ann")), .join (CBuf.copy _ (lit "bob")), .msg 0 (lit "bob hi"), .lookup 0,
   .deliver 0 1752500000, .copy 0 1752500000, .reply 1 (lit "for ann"), .lookup 1, .deliver 1 1752500001]

theorem reply_reaches_peer_answered :
    ∃ s c, exec (whisperStep true 64) .init answered = some s ∧ s.clients[0]? = some c ∧
      c.whisperInbox.map (·.kind) = [.msg, .reply (some 0)] ∧
      ∀ x ∈ c.whisperInbox, x.whisper.outgoing = false → ∀ peer, x.kind = .reply peer → peer = some 0 :=
  have hmeets : Meets (whisperStep true 64) RepliesMeetPeer .init answered := by decide +kernel
  ⟨_, _, rfl, rfl, by decide +kernel, reply_reaches_peer true 64 answered _ hmeets rfl 0 _ rfl⟩

/-- `ann` leaves before `bob` answers, and somebody else joins under her name. -/
def nameTaken : List WhisperEvent :=
  [.join (CBuf.copy _ (lit "ann")), .join (CBuf.copy _ (lit "bob")), .msg 0 (lit "bob hi"), .lookup 0,
   .deliver 0 1752500000, .copy 0 1752500000, .leave 0, .join (CBuf.copy _ (lit "ann")),
   .reply 1 (lit "for ann"), .lookup 1, .deliver 1 1752500001]

/-- The third client reads what was meant for the first. -/
theorem reply_misdelivered :
    ((exec (whisperStep true 64) .init nameTaken).bind (·.clients[2]?)).map
        (fun c => c.whisperInbox.map fun x => (x.kind, x.whisper.outgoing, x.whisper.content.bytes)) =
      some [(.reply (some 0), false, lit "for ann")] := by
  decide +kernel

end Tnt
