import Tnt.InsertMode
import Tnt.Lifetime
import Tnt.Server
/-!
# Mentions (`input.c`)

`notify_mentions` looks for `@` and the name of each client of the room in a message,
as a part of the text. It does not look at what stands behind the name, so that
`@anna` is a mention of a client `ann` as well. `mentions_exact_iff` says when the
clients that hear of a message are the mentioned ones.
-/
open BaseLib

namespace Tnt

/-- `client_t`, as far as mentions depend on it. -/
structure MentionClient where
  username : CBuf MAX_USERNAME_LEN
  unreadMentions : Nat
  pendingBells : Nat
  redrawPending : Bool

/-- The room, where a client is its number. -/
structure MentionRoom where
  /-- `g_room->clients`, up to `client_count` -/
  clients : List Nat
  clients_nodup : clients.Nodup
  client : Nat → MentionClient

/-- Sessions join the room once. -/
def MentionRoom.ofRun (w : Lifetimes) (hw : Reachable lifeStep .init w) (client : Nat → MentionClient) : MentionRoom where
  clients := w.room
  clients_nodup := (hw.inv LifeInv (fun _ _ _ hi h => lifeInv_step hi h) lifeInv_init).room_nodup
  client := client

/-- The first loop of `notify_mentions`. -/
def mentionTargets (content : Bytes) (sender : Option Nat) (client : Nat → MentionClient) : List Nat → List Nat
  | [] => []
  | c :: clients =>
    if some c = sender then mentionTargets content sender client clients
    else
      let mention := CBuf.copy (MAX_USERNAME_LEN + 2) (0x40 :: (client c).username.bytes)
      if strstr content mention.bytes then c :: mentionTargets content sender client clients
      else mentionTargets content sender client clients

/-- One more mention, and `client_queue_bell`. -/
def MentionClient.notified (c : MentionClient) : MentionClient :=
  { c with unreadMentions := c.unreadMentions + 1, pendingBells := 1, redrawPending := true }

namespace MentionRoom

/-- `notify_mentions`, with memory for the targets. The module runtime has no client as the sender. -/
def notifyMentions (room : MentionRoom) (content : Bytes) (sender : Option Nat) : MentionRoom :=
  let targets := mentionTargets content sender room.client room.clients
  { room with client := targets.foldl (fun client c => Function.update client c (client c).notified) room.client }

/-! ## What a mention is -/

def name (room : MentionRoom) (c : Nat) : Bytes := (room.client c).username.bytes

/-- Behind some `@` stands the name, and no longer name of another client in the room. -/
def Mentions (room : MentionRoom) (content : Bytes) (c : Nat) : Prop :=
  ∃ front behind, content = front ++ 0x40 :: behind ∧ room.name c <+: behind ∧
    ∀ d ∈ room.clients, d ≠ c → room.name d <+: behind → (room.name d).length ≤ (room.name c).length

/-- The mentioned clients, except for the sender, are notified once, and the others are not. -/
def MentionsExact (room : MentionRoom) (content : Bytes) (sender : Option Nat) : Prop :=
  ∀ c, (c ∈ room.clients ∧ some c ≠ sender ∧ room.Mentions content c →
      (room.notifyMentions content sender).client c = (room.client c).notified) ∧
    (¬ (c ∈ room.clients ∧ some c ≠ sender ∧ room.Mentions content c) →
      (room.notifyMentions content sender).client c = room.client c)

end MentionRoom

/-! ## Who is notified -/

section Targets
variable {content : Bytes} {sender : Option Nat} {client : Nat → MentionClient} {clients : List Nat} {c : Nat}

theorem mention_bytes (name : CBuf MAX_USERNAME_LEN) :
    (CBuf.copy (MAX_USERNAME_LEN + 2) (0x40 :: name.bytes)).bytes = 0x40 :: name.bytes := by
  apply CBuf.copy_bytes
  · rw [List.mem_cons, not_or]
    exact ⟨by decide, name.nul_free⟩
  · have := name.fits
    rw [List.length_cons]
    omega

theorem mentionTargets_eq : mentionTargets content sender client clients =
    clients.filter fun c => some c ≠ sender ∧ 0x40 :: (client c).username.bytes <:+: content := by
  induction clients with
  | nil => rfl
  | cons c clients ih =>
    rw [mentionTargets]
    dsimp only
    rw [mention_bytes, ih]
    by_cases hsender : some c = sender
    · simp [hsender]
    · by_cases hmention : 0x40 :: (client c).username.bytes <:+: content
      · simp [hsender, hmention]
      · simp [hsender, hmention]

/-- No client stands twice among the targets. -/
theorem foldl_notified {targets : List Nat} (h : targets.Nodup) (client : Nat → MentionClient) (c : Nat) :
    targets.foldl (fun client c => Function.update client c (client c).notified) client c =
      if c ∈ targets then (client c).notified else client c := by
  induction targets generalizing client with
  | nil => rfl
  | cons d targets ih =>
    obtain ⟨hd, htargets⟩ := List.nodup_cons.1 h
    rw [List.foldl_cons, ih htargets]
    by_cases hcd : c = d
    · subst hcd
      simp [hd]
    · simp [hcd]

theorem notified_ne (c : MentionClient) : c.notified ≠ c := by
  intro h
  have := congrArg MentionClient.unreadMentions h
  simp only [MentionClient.notified] at this
  omega

end Targets

namespace MentionRoom

variable {room : MentionRoom} {content : Bytes} {sender : Option Nat} {c : Nat}

/-- A client hears of a message that has `@` and the name somewhere. -/
theorem notifyMentions_client (room : MentionRoom) (content : Bytes) (sender : Option Nat) (c : Nat) :
    (room.notifyMentions content sender).client c =
      if c ∈ room.clients ∧ some c ≠ sender ∧ 0x40 :: room.name c <:+: content then (room.client c).notified
      else room.client c := by
  have htargets : (mentionTargets content sender room.client room.clients).Nodup := by
    rw [mentionTargets_eq]
    exact room.clients_nodup.filter _
  rw [notifyMentions]
  dsimp only
  rw [foldl_notified htargets, mentionTargets_eq]
  refine if_congr ?_ rfl rfl
  rw [List.mem_filter, decide_eq_true_eq]
  rfl

theorem infix_of_mentions (h : room.Mentions content c) : 0x40 :: room.name c <:+: content := by
  obtain ⟨front, behind, rfl, ⟨rest, rfl⟩, -⟩ := h
  exact ⟨front, rest, by rw [List.append_assoc, List.cons_append]⟩

theorem mentionsExact_iff : room.MentionsExact content sender ↔
    ∀ c ∈ room.clients, some c ≠ sender → 0x40 :: room.name c <:+: content → room.Mentions content c := by
  constructor
  · intro h c hc hsender hinfix
    by_contra hmentions
    have hsame := (h c).2 fun hall => hmentions hall.2.2
    rw [notifyMentions_client, if_pos ⟨hc, hsender, hinfix⟩] at hsame
    exact notified_ne _ hsame
  · intro h c
    rw [notifyMentions_client]
    constructor
    · rintro ⟨hc, hsender, hmentions⟩
      rw [if_pos ⟨hc, hsender, infix_of_mentions hmentions⟩]
    · intro hnot
      exact if_neg fun hall => hnot ⟨hall.1, hall.2.1, h c hall.1 hall.2.1 hall.2.2⟩

/-- Who hears of a message. -/
theorem notified_iff : (room.notifyMentions content sender).client c ≠ room.client c ↔
    c ∈ room.clients ∧ some c ≠ sender ∧ 0x40 :: room.name c <:+: content := by
  rw [notifyMentions_client]
  split
  · exact iff_of_true (notified_ne _) ‹_›
  · exact iff_of_false (fun h => h rfl) ‹_›

/-- What stands behind a single `@`. -/
theorem behind_single {a b front behind : Bytes} (h : a ++ 0x40 :: b = front ++ 0x40 :: behind)
    (hcount : (front ++ 0x40 :: behind).count 0x40 = 1) : b = behind := by
  have hcount' := h ▸ hcount
  rw [List.count_append, List.count_cons_self] at hcount hcount'
  exact (append_byte_inj (List.count_eq_zero.1 (by omega)) (List.count_eq_zero.1 (by omega)) h).2

theorem infix_single {front behind : Bytes} (hcount : (front ++ 0x40 :: behind).count 0x40 = 1) {name : Bytes} :
    0x40 :: name <:+: front ++ 0x40 :: behind ↔ name <+: behind := by
  constructor
  · rintro ⟨s, t, heq⟩
    rw [List.append_assoc, List.cons_append] at heq
    exact ⟨t, behind_single heq hcount⟩
  · rintro ⟨t, rfl⟩
    exact ⟨front, t, by rw [List.append_assoc, List.cons_append]⟩

end MentionRoom

/-! ## The session's count -/

/-- What `notifyMentions` of the server counts is counted here. -/
theorem notifyMentions_unread {room : MentionRoom} {msg : Message} {i : Option Nat} {sessions : List Session}
    (hnames : ∀ (j : Nat) (c : Session), sessions[j]? = some c → room.name j = c.username.bytes ∧
      (room.client j).unreadMentions = c.unreadMentions) {j : Nat} {c : Session}
    (hc : sessions[j]? = some c) :
    ∃ c', (notifyMentions msg (i.elim .moduleWorker .session) room.clients sessions)[j]? = some c' ∧
      c'.unreadMentions = ((room.notifyMentions msg.content.bytes i).client j).unreadMentions := by
  obtain ⟨hname, hunread⟩ := hnames j c hc
  have hsender : Actor.session j ≠ i.elim .moduleWorker .session ↔ some j ≠ i := by
    cases i with
    | none => simp
    | some i => simp
  rw [notifyMentions, List.getElem?_mapIdx, hc]
  refine ⟨_, rfl, ?_⟩
  rw [MentionRoom.notifyMentions_client, hname]
  by_cases hmention : j ∈ room.clients ∧ some j ≠ i ∧ 0x40 :: c.username.bytes <:+: msg.content.bytes
  · rw [if_pos hmention]
    dsimp only
    rw [if_pos ⟨hmention.1, hsender.2 hmention.2.1, strstr_iff.2 hmention.2.2⟩]
    exact congrArg (· + 1) hunread.symm
  · rw [if_neg hmention]
    dsimp only
    rw [if_neg fun h => hmention ⟨h.1, hsender.1 h.2.1, strstr_iff.1 h.2.2⟩]
    exact hunread.symm

/-! ## The mentioned ones -/

/-- Mentions in use. A client hears of a message that does not mention it if all of the `@` in front of
its name stand in front of a longer name of the room as well; those who hear of a name that Tab put in
have names that are in front of what stands behind the only `@`. -/
theorem mentions_exact_iff (room : MentionRoom) (content : Bytes) (sender : Option Nat) :
    (room.MentionsExact content sender ↔
      ¬ ∃ c ∈ room.clients, some c ≠ sender ∧ 0x40 :: room.name c <:+: content ∧
        ∀ front behind, content = front ++ 0x40 :: behind → room.name c <+: behind →
          ∃ d ∈ room.clients, d ≠ c ∧ room.name d <+: behind ∧ (room.name c).length < (room.name d).length) ∧
    ∀ names self input, completeMention names self input ≠ input →
      ∃ front, ∃ found ∈ names, (completeMention names self input).bytes = front ++ 0x40 :: (found.bytes ++ [0x20]) ∧
        ∀ before behind, content = before ++ 0x40 :: (found.bytes ++ 0x20 :: behind) → content.count 0x40 = 1 →
          ((∀ c, (room.notifyMentions content sender).client c ≠ room.client c → room.name c = found.bytes) ↔
            ∀ c ∈ room.clients, some c ≠ sender → room.name c <+: found.bytes ++ 0x20 :: behind →
              room.name c = found.bytes) := by
  constructor
  · rw [MentionRoom.mentionsExact_iff]
    push Not
    refine forall₂_congr fun c hc => forall₂_congr fun hsender hinfix => ?_
    simp only [MentionRoom.Mentions]
  · intro names self input h
    rcases completeMention_eq names self input with hsame | ⟨front, -, -, found, hfound, hnew⟩
    · exact absurd hsame h
    refine ⟨front, found, hfound, hnew, ?_⟩
    intro before behind hcontent hcount
    refine forall_congr' fun c => ?_
    rw [MentionRoom.notified_iff, hcontent, MentionRoom.infix_single (hcontent ▸ hcount)]
    simp only [and_imp]

/-- The sender, `ann` and `anna`. -/
def annaRoom : MentionRoom where
  clients := [0, 1, 2]
  clients_nodup := by decide
  client c := ⟨CBuf.copy _ ([lit "bob", lit "ann", lit "anna"].getD c []), 0, 0, false⟩

/-- Tab completes `@anna`, and `ann` hears of it. -/
theorem mentions_ann :
    ∃ input, completeMention (annaRoom.clients.map fun c => (annaRoom.client c).username) (annaRoom.client 0).username
        (CBuf.copy _ (lit "hi @anna")) = input ∧ input.bytes = lit "hi @anna " ∧
      ((annaRoom.notifyMentions input.bytes (some 0)).client 1).unreadMentions = 1 ∧
      ¬ annaRoom.MentionsExact input.bytes (some 0) := by
  refine ⟨_, rfl, by decide, by decide, fun h => ?_⟩
  have hunmentioned : ¬ annaRoom.Mentions (lit "hi " ++ 0x40 :: lit "anna ") 1 := by
    rintro ⟨front, behind, hsplit, -, hlongest⟩
    obtain rfl := MentionRoom.behind_single hsplit.symm (by decide)
    exact absurd (hlongest 2 (by decide) (by decide) (by decide)) (by decide)
  have hsame := congrArg MentionClient.unreadMentions ((h 1).2 fun hall => hunmentioned hall.2.2)
  revert hsame
  decide

end Tnt
