import Tnt.Lib.Windows
import Tnt.Whisper
/-!
# The inbox of a client (`commands.c`)

What a client's inbox holds is read off what happened to it: private messages came
in and copies of its own were put there, `:inbox` and the automatic refresh showed
it, `:inbox clear` emptied it (and showed it in a further step, before which other
sessions can send). `inbox_law` says this of every client after every run.

The count of unread messages is a natural number here; the `int` of the source has
room for 2^31 - 1 of them.
-/
open BaseLib

namespace Tnt

/-- What a private message leaves in an inbox, except for the mark of an unread one. -/
structure InboxEntry where
  timestamp : Int
  sender : CBuf MAX_USERNAME_LEN
  recipient : CBuf MAX_USERNAME_LEN
  content : CBuf MAX_MESSAGE_LEN
  outgoing : Bool
  kind : WhisperKind
  deriving DecidableEq

namespace InboxEntry

def incoming (e : InboxEntry) : Bool := !e.outgoing

def peer (e : InboxEntry) : CBuf MAX_USERNAME_LEN := if e.outgoing then e.recipient else e.sender

def stored (e : InboxEntry × Bool) : Stored :=
  ⟨⟨e.1.timestamp, e.1.sender, e.1.recipient, e.1.content, e.1.outgoing, e.2⟩, e.1.kind⟩

end InboxEntry

/-- What sending `x` leaves in an inbox, where `c` is the sender. -/
def Sending.entry (x : Sending) (c : WhisperClient) (now : Int) (outgoing : Bool) : InboxEntry :=
  ⟨now, c.username, x.targetName, CBuf.copy MAX_MESSAGE_LEN x.content, outgoing, x.kind⟩

/-- What a step does to the inbox of client `i`. -/
def WhisperRoom.inboxEvents (i : Nat) (s : WhisperRoom) : WhisperEvent → List (MailEvent InboxEntry)
  | .inbox j => if j = i then [.render] else []
  | .inboxClear j => if j = i then [.clear] else []
  | .deliver j now =>
    s.clients[j]?.elim [] fun c => c.sending.elim [] fun x =>
      if x.stage = .deliver i then [.append (x.entry c now false)] else []
  | .copy j now =>
    s.clients[j]?.elim [] fun c => c.sending.elim [] fun x =>
      if j = i then [.append (x.entry c now true)] else []
  | _ => []

/-- All that a run does to the inbox of client `i`. -/
def inboxHistory (charSigned : Bool) (capacity : Nat) (i : Nat) (es : List WhisperEvent) :
    List (MailEvent InboxEntry) :=
  heard (whisperStep charSigned capacity) (WhisperRoom.inboxEvents i) .init es

/-! ## One client -/

/-- The fields of the client say what the mailbox says. -/
structure InboxIs (c : WhisperClient) (b : Mailbox InboxEntry) : Prop where
  entries : c.whisperInbox = b.entries.map InboxEntry.stored
  unread : c.unreadWhispers = b.unread
  peer : c.lastWhisperPeer = (b.newest.map InboxEntry.peer).getD (CBuf.copy MAX_USERNAME_LEN [])

namespace InboxIs

variable {c d : WhisperClient} {b : Mailbox InboxEntry}

/-- Nothing else of the client matters. -/
theorem congr (h : InboxIs c b) (hinbox : d.whisperInbox = c.whisperInbox)
    (hunread : d.unreadWhispers = c.unreadWhispers) (hpeer : d.lastWhisperPeer = c.lastWhisperPeer) : InboxIs d b :=
  ⟨hinbox.trans h.entries, hunread.trans h.unread, hpeer.trans h.peer⟩

theorem append (h : InboxIs c b) (x : Sending) (s : WhisperClient) (peer : Nat) (now : Int) (outgoing : Bool) :
    InboxIs (clientAppendWhisper c x.kind peer now s.username x.targetName x.content outgoing (!outgoing))
      (b.apply InboxEntry.incoming WHISPER_INBOX_SIZE (.append (x.entry s now outgoing))) where
  entries := by
    simp only [Mailbox.apply, map_slide, ← h.entries]
    rfl
  unread := by
    simp only [clientAppendWhisper, Mailbox.apply, h.unread]
    rfl
  peer := rfl

theorem render (h : InboxIs c b) :
    InboxIs (viewInbox c) (b.apply InboxEntry.incoming WHISPER_INBOX_SIZE .render) where
  entries := by
    simp only [viewInbox, Mailbox.apply, h.entries, List.map_map]
    rfl
  unread := rfl
  peer := h.peer

theorem clear : InboxIs (clearInbox c) (b.apply InboxEntry.incoming WHISPER_INBOX_SIZE .clear) := ⟨rfl, rfl, rfl⟩

end InboxIs

/-! ## A step -/

/-- Client `i` has this inbox; it is empty as long as there is no such client. -/
def WhisperRoom.HasInbox (i : Nat) (s : WhisperRoom) (b : Mailbox InboxEntry) : Prop :=
  s.clients[i]?.elim (b = .empty) (InboxIs · b)

namespace WhisperRoom.HasInbox

variable {s : WhisperRoom} {i j : Nat} {c d : WhisperClient} {b b' : Mailbox InboxEntry}

theorem of_some (hc : s.clients[i]? = some c) : HasInbox i s b ↔ InboxIs c b := by
  rw [HasInbox, hc]
  rfl

theorem put_self (hc : s.clients[i]? = some c) (h : InboxIs d b) : HasInbox i (s.put i d) b := by
  obtain ⟨hi, -⟩ := List.getElem?_eq_some_iff.1 hc
  rw [of_some (c := d) (by rw [WhisperRoom.put, List.getElem?_set_self hi])]
  exact h

theorem put_ne (hne : j ≠ i) : HasInbox i (s.put j d) b ↔ HasInbox i s b := by
  rw [HasInbox, HasInbox, WhisperRoom.put, List.getElem?_set_ne hne]

/-- A step that leaves the inbox of client `j` alone. -/
theorem put_same (h : HasInbox i s b) (hc : s.clients[j]? = some c) (hinbox : d.whisperInbox = c.whisperInbox)
    (hunread : d.unreadWhispers = c.unreadWhispers) (hpeer : d.lastWhisperPeer = c.lastWhisperPeer) :
    HasInbox i (s.put j d) b := by
  by_cases hj : j = i
  · subst hj
    exact put_self hc (((of_some hc).1 h).congr hinbox hunread hpeer)
  · exact (put_ne hj).2 h

/-- A step that does `e` to the inbox of client `j`. -/
theorem put_event (h : HasInbox i s b) (hc : s.clients[j]? = some c) {e : MailEvent InboxEntry}
    (hd : InboxIs c b → InboxIs d (b.apply InboxEntry.incoming WHISPER_INBOX_SIZE e)) :
    HasInbox i (s.put j d)
      ((if j = i then [e] else []).foldl (Mailbox.apply InboxEntry.incoming WHISPER_INBOX_SIZE) b) := by
  split
  · rename_i hj
    subst hj
    exact put_self hc (hd ((of_some hc).1 h))
  · rename_i hj
    exact (put_ne hj).2 h

end WhisperRoom.HasInbox

section
variable {s : WhisperRoom} {j : Nat} {c : WhisperClient} {x : Sending}

theorem inboxEvents_deliver {t : Nat} (hc : s.clients[j]? = some c) (hx : c.sending = some x)
    (hstage : x.stage = .deliver t) (k : Nat) (now : Int) :
    s.inboxEvents k (.deliver j now) = if t = k then [.append (x.entry c now false)] else [] := by
  simp only [WhisperRoom.inboxEvents, hc, hx, Option.elim_some, hstage, SendStage.deliver.injEq]

theorem inboxEvents_copy (hc : s.clients[j]? = some c) (hx : c.sending = some x) (k : Nat) (now : Int) :
    s.inboxEvents k (.copy j now) = if j = k then [.append (x.entry c now true)] else [] := by
  simp only [WhisperRoom.inboxEvents, hc, hx, Option.elim_some]

end

/-- The inbox follows what a step does to it. -/
theorem hasInbox_step {charSigned : Bool} {capacity i : Nat} (s : WhisperRoom) (e : WhisperEvent) (s' : WhisperRoom)
    (b : Mailbox InboxEntry) (h : s.HasInbox i b) (hs : whisperStep charSigned capacity s e = some s') :
    s'.HasInbox i ((s.inboxEvents i e).foldl (Mailbox.apply InboxEntry.incoming WHISPER_INBOX_SIZE) b) := by
  cases whisperStep_effect hs with
  | refused | left | noMsg | noReply => exact h
  | joined typed =>
    unfold WhisperRoom.HasInbox at h ⊢
    rw [List.getElem?_append]
    split
    · exact h
    · rename_i hi
      -- Nobody was at this place, so nothing was heard of its inbox.
      rw [List.getElem?_eq_none (by omega)] at h
      obtain rfl : b = .empty := h
      rcases i - s.clients.length with _ | n
      · exact ⟨rfl, rfl, rfl⟩
      · rfl
  | @renamed j c arg hc =>
    obtain ⟨name, hname⟩ := nickChange_eq charSigned s j c arg
    rw [hname]
    exact h.put_same hc rfl rfl rfl
  | msg hc | reply _ hc | notFound hc | found hc => exact h.put_same hc rfl rfl rfl
  | viewed hc => exact h.put_event hc InboxIs.render
  | cleared hc => exact h.put_event hc fun _ => .clear
  | @kept j c x now hc hx hstage =>
    -- The delivery is the one event, and no copy follows.
    rw [inboxEvents_deliver hc hx hstage]
    exact h.put_event hc fun hi => (hi.append x c j now false).congr rfl rfl rfl
  | @delivered j target c t x now hc hx hstage ht hne =>
    have hc' : (s.put target (clientAppendWhisper t x.kind j now c.username x.targetName x.content false
        true)).clients[j]? = some c := by
      rw [WhisperRoom.put, List.getElem?_set_ne hne, hc]
    rw [inboxEvents_deliver hc hx hstage]
    exact (h.put_event ht fun hi => hi.append x c j now false).put_same hc' rfl rfl rfl
  | @copied j target c x now hc hx hstage =>
    rw [inboxEvents_copy hc hx]
    exact h.put_event hc fun hi => (hi.append x c target now true).congr rfl rfl rfl

/-! ## A run -/

/-- After any run, a client's inbox holds the newest 16 of the entries put there since it was last cleared,
in their order, where an incoming one is marked unread until it is shown; the unread ones are counted, and the
client's last counterparty is that of the newest entry. -/
theorem inbox_law (charSigned : Bool) (capacity : Nat) (es : List WhisperEvent) (s : WhisperRoom)
    (hrun : exec (whisperStep charSigned capacity) .init es = some s) (i : Nat) (c : WhisperClient)
    (hc : s.clients[i]? = some c) :
    c.whisperInbox =
        ((marked InboxEntry.incoming (sinceClear (inboxHistory charSigned capacity i es))).rtake
          WHISPER_INBOX_SIZE).map InboxEntry.stored ∧
      c.unreadWhispers =
        (arrived (sinceRead (inboxHistory charSigned capacity i es))).countP InboxEntry.incoming ∧
      c.lastWhisperPeer =
        ((arrived (sinceClear (inboxHistory charSigned capacity i es))).getLast?.map InboxEntry.peer).getD
          (CBuf.copy MAX_USERNAME_LEN []) := by
  have hinit : WhisperRoom.HasInbox i .init .empty := rfl
  have hinbox := (WhisperRoom.HasInbox.of_some hc).1 (exec_heard (WhisperRoom.HasInbox i) hasInbox_step hinit hrun)
  rw [Mailbox.foldl_apply _ _ (by decide)] at hinbox
  exact ⟨hinbox.entries, hinbox.unread, hinbox.peer⟩

/-- `bob` has the inbox shown after the first message, and not after the second. -/
def writtenTwice : List WhisperEvent :=
  [.join (CBuf.copy _ (lit "ann")), .join (CBuf.copy _ (lit "bob")), .msg 0 (lit "bob hi"), .lookup 0,
   .deliver 0 1752500000, .inbox 1, .copy 0 1752500000, .msg 0 (lit "bob there?"), .lookup 0,
   .deliver 0 1752500060]

theorem inbox_law_twice :
    ∃ s c, exec (whisperStep true 64) .init writtenTwice = some s ∧ s.clients[1]? = some c ∧
      c.whisperInbox.map (fun x => (x.whisper.content.bytes, x.whisper.unread)) =
        [(lit "hi", false), (lit "there?", true)] ∧
      c.whisperInbox =
        ((marked InboxEntry.incoming (sinceClear (inboxHistory true 64 1 writtenTwice))).rtake
          WHISPER_INBOX_SIZE).map InboxEntry.stored ∧
      c.unreadWhispers = 1 ∧ c.lastWhisperPeer.bytes = lit "ann" :=
  have hlaw := inbox_law true 64 writtenTwice _ rfl 1 _ rfl
  ⟨_, _, rfl, rfl, by decide +kernel, hlaw.1, hlaw.2.1.trans (by decide +kernel),
    (congrArg CBuf.bytes hlaw.2.2).trans (by decide +kernel)⟩

end Tnt
