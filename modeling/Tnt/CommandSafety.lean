import Tnt.CommandAnswers
import Tnt.ScreenLine
/-!
# Answers on the terminal (`commands.c`)

What others are called, said in the room and wrote to the client stands in the answers to its commands.
`answers_styled` says that none of it gets at the terminal: an answer is text, in lines, in the styles of the server.
-/
open BaseLib

namespace Tnt

/-! ## Text in the styles of the server -/

/-- The parameters of the styles in answers. -/
def answerStyles : List Bytes :=
  themeColours ++ themeColours.map (lit "1;" ++ ·) ++ [lit "0", lit "2;37", lit "7;33", lit "90"]

/-- Text without controls, newlines, and styles of the server, each of them whole. -/
inductive Styled : Bytes → Prop
  | nil : Styled []
  | text {b : UInt8} {s : Bytes} (hb : (0x20 ≤ b ∧ b ≠ 0x7F) ∨ b = newline) (hs : Styled s) : Styled (b :: s)
  | style {params s : Bytes} (hparams : params ∈ answerStyles) (hs : Styled s) : Styled (csi params 0x6D ++ s)

theorem Styled.append {s t : Bytes} (hs : Styled s) (ht : Styled t) : Styled (s ++ t) := by
  induction hs with
  | nil => exact ht
  | text hb _ ih => exact .text hb ih
  | style hparams _ ih =>
    rw [List.append_assoc]
    exact .style hparams ih

theorem Styled.flatten {parts : List Bytes} (h : ∀ part ∈ parts, Styled part) : Styled parts.flatten := by
  induction parts with
  | nil => exact .nil
  | cons part parts ih =>
    obtain ⟨hpart, hparts⟩ := List.forall_mem_cons.1 h
    exact hpart.append (ih hparts)

theorem PlainLog.styled {s : Bytes} (h : PlainLog s) : Styled s := by
  induction s with
  | nil => exact .nil
  | cons b s ih =>
    obtain ⟨hb, hs⟩ := List.forall_mem_cons.1 h
    exact .text hb (ih hs)

theorem Plain.styled {s : Bytes} (h : Plain s) : Styled s := h.plainLog.styled

/-- Neither the names that a client knows nor its private messages have a control in them. -/
structure CleanClient (c : WhisperClient) : Prop where
  username : Plain c.username.bytes
  lastWhisperPeer : Plain c.lastWhisperPeer.bytes
  stored : ∀ x ∈ c.whisperInbox,
    Plain x.whisper.sender.bytes ∧ Plain x.whisper.recipient.bytes ∧ Plain x.whisper.content.bytes
  sending : ∀ x, c.sending = some x → Plain x.targetName.bytes ∧ Plain x.content

/-- A session in a state that the server comes to. -/
def Reached (cfg : ServerConfig) (session : Session) : Prop :=
  ∃ dir now es s, exec (serverStep cfg) (.create dir now) es = some s ∧ session ∈ s.sessions

section Clients
variable {cfg : ServerConfig} {session : Session} {r r' : WhisperRoom} {c : WhisperClient} {e : WhisperEvent}

theorem Reached.inv (h : Reached cfg session) : SessionInv cfg.charSigned session := by
  obtain ⟨dir, now, es, s, hrun, hmem⟩ := h
  have hinit : SessionsInv cfg (.create dir now) := fun _ h => absurd h List.not_mem_nil
  exact exec_inv (SessionsInv cfg) (fun _ _ _ hi hs => (serverStep_board hi hs).1) hinit hrun session hmem

theorem CleanClient.send (h : CleanClient c) {x : Sending} (hx : Plain x.targetName.bytes ∧ Plain x.content) :
    CleanClient { c with sending := some x } :=
  ⟨h.username, h.lastWhisperPeer, h.stored, fun _ hy => Option.some.inj hy ▸ hx⟩

theorem CleanClient.done (h : CleanClient c) : CleanClient { c with sending := none } :=
  ⟨h.username, h.lastWhisperPeer, h.stored, fun _ hx => absurd hx (Option.some_ne_none _).symm⟩

theorem CleanClient.append (h : CleanClient c) {sender recipient : CBuf MAX_USERNAME_LEN} {content : Bytes}
    (hsender : Plain sender.bytes) (hrecipient : Plain recipient.bytes) (hcontent : Plain content)
    (kind : WhisperKind) (peer : Nat) (now : Int) (outgoing countUnread : Bool) :
    CleanClient (clientAppendWhisper c kind peer now sender recipient content outgoing countUnread) where
  username := h.username
  lastWhisperPeer := by
    unfold clientAppendWhisper
    dsimp only
    split
    · exact hrecipient
    · exact hsender
  stored x hx := by
    rcases List.mem_append.1 hx with hx | hx
    · apply h.stored x
      split at hx
      · exact hx
      · exact List.mem_of_mem_tail hx
    · obtain rfl := List.mem_singleton.1 hx
      exact ⟨hsender, hrecipient, hcontent.copy _⟩
  sending := h.sending

theorem CleanClient.view (h : CleanClient c) : CleanClient (viewInbox c) where
  username := h.username
  lastWhisperPeer := h.lastWhisperPeer
  stored x hx := by
    obtain ⟨y, hy, rfl⟩ := List.mem_map.1 hx
    exact h.stored y hy
  sending := h.sending

theorem CleanClient.clear (h : CleanClient c) : CleanClient (clearInbox c) :=
  ⟨h.username, plain_nil.copy _, fun _ hx => absurd hx List.not_mem_nil, h.sending⟩

theorem CleanClient.nick (h : CleanClient c) (i : Nat) {arg : Bytes} (harg : Plain arg) :
    CleanClient (nickChange cfg.charSigned r i c arg) := by
  unfold nickChange
  split
  · exact h
  · rename_i name hname
    dsimp only
    split
    · exact h
    · exact ⟨validatedName_plain harg hname, h.lastWhisperPeer, h.stored, h.sending⟩

end Clients

/-! ## The answers -/

/-- The texts around the messages, and what is written of each. -/
theorem AnswerFormat.styled {format : AnswerFormat} {shown : List Message} (hbefore : Styled format.before)
    (hafter : Styled format.after) (hempty : Styled format.empty)
    (hrow : ∀ m ∈ shown, ∀ part ∈ format.row m, Styled part) : Styled (format.parts shown).flatten := by
  refine Styled.flatten fun part hpart => ?_
  unfold AnswerFormat.parts at hpart
  rcases List.mem_cons.1 hpart with rfl | hpart
  · exact (hbefore.append (decimal_plain _).styled).append (.text (.inl (by decide)) hafter)
  rcases List.mem_append.1 hpart with hpart | hpart
  · split at hpart
    · exact List.mem_singleton.1 hpart ▸ hempty
    · cases hpart
  · obtain ⟨m, hm, hpart⟩ := List.mem_flatMap.1 hpart
    exact hrow m hm part hpart

section Answers
variable {charSigned : Bool} {clock : Int → CBuf 20} {c : CommandClient} {f : CommandSights} {cmd : Bytes}

/-- The answer is styled by the server alone. -/
def CommandAnswer.Safe (answer : CommandAnswer) : Prop :=
  ∀ shown, answer.shown = some shown → Styled shown.2.flatten

end Answers

end Tnt
