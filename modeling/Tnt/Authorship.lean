import Tnt.Server
/-!
# What a name can pass for

The class of a message is read off its username and its text, and no name is
reserved. `message_authorship` says what a user's message is taken for, in every
reachable state, in terms of the user's name and of what was sent.
-/
open BaseLib

namespace Tnt

/-- The phrases that make a system message one of a join or a leave. -/
def joinLeavePhrases : List Bytes :=
  [lit "加入了聊天室", lit "离开了聊天室", lit "joined the room", lit "left the room"]

theorem isSystem_iff (m : Message) :
    systemMessageIsSystem m = true ↔ m.username.bytes = lit "system" ∨ m.username.bytes = lit "系统" := by
  rw [systemMessageIsSystem, Bool.or_eq_true, beq_iff_eq, beq_iff_eq, or_comm]

theorem isJoinLeave_iff (m : Message) : systemMessageIsJoinLeave m = true ↔
    systemMessageIsSystem m = true ∧ ∃ phrase ∈ joinLeavePhrases, phrase <:+: m.content.bytes := by
  unfold systemMessageIsJoinLeave
  cases systemMessageIsSystem m <;> simp [joinLeavePhrases, or_assoc]

/-! ## Notices of renames -/

theorem notice_content (now : Int) {what : Notice} {lang : UiLang} (h0 : 0 ∉ what.text lang)
    (hlen : (what.text lang).length < MAX_MESSAGE_LEN) :
    (systemMessageMake now what lang).content.bytes = what.text lang := CBuf.copy_bytes h0 hlen

/-- What stands between the names in the notice of a rename. -/
def renamedTo : UiLang → Bytes
  | .en => lit " renamed to "
  | .zh => lit " 更名为 "

theorem renamedTo_clash (lang : UiLang) : ∀ phrase ∈ joinLeavePhrases, Clash phrase (renamedTo lang) := by
  cases lang <;> decide +kernel

/-- A rename passes for a join or a leave when one of the names has a phrase in it. -/
theorem isJoinLeave_nick (now : Int) (oldName newName : CBuf MAX_USERNAME_LEN) (lang : UiLang) :
    systemMessageIsJoinLeave (systemMessageMake now (.nick oldName newName) lang) = true ↔
      ∃ phrase ∈ joinLeavePhrases, phrase <:+: oldName.bytes ∨ phrase <:+: newName.bytes := by
  have htext : Notice.text (.nick oldName newName) lang = oldName.bytes ++ renamedTo lang ++ newName.bytes := by
    cases lang <;> rfl
  have hsep : 0 ∉ renamedTo lang ∧ (renamedTo lang).length ≤ 12 := by cases lang <;> decide
  have hold := oldName.fits
  have hnew := newName.fits
  have hcontent := @notice_content now (.nick oldName newName) lang
    (by simp [htext, oldName.nul_free, newName.nul_free, hsep.1])
    (by simp only [htext, List.length_append, MAX_MESSAGE_LEN, MAX_USERNAME_LEN] at *; omega)
  rw [isJoinLeave_iff, and_iff_right (systemMessageIsSystem_make now _ lang), hcontent, htext]
  exact exists_congr fun phrase => and_congr_right fun hp => infix_separated (renamedTo_clash lang phrase hp)

/-! ## Messages of users -/

/-- The name that `exec post` uses is valid. -/
theorem resolveExecUsername_valid (charSigned : Bool) (sshLogin : CBuf MAX_USERNAME_LEN) :
    isValidUsername charSigned (resolveExecUsername charSigned sshLogin).bytes = true := by
  have hne := resolveExecUsername_ne_nil charSigned sshLogin
  simp only [resolveExecUsername] at hne ⊢
  obtain ⟨buffer, hb⟩ : ∃ buffer, buffer = if sshLogin.bytes ≠ [] ∧ isValidUsername charSigned sshLogin.bytes = true
    then sshLogin else CBuf.copy MAX_USERNAME_LEN (lit "anonymous") := ⟨_, rfl⟩
  have hvalid : isValidUsername charSigned buffer.bytes = true := by
    rw [hb]
    split
    · rename_i h
      exact h.2
    · cases charSigned <;> decide
  rw [← hb] at hne ⊢
  split at hne
  · rename_i hlong
    rw [if_pos hlong]
    rw [bytes_truncatedName] at hne ⊢
    exact validUsername_start hvalid (isPrefix_utf8Truncate _ _) hne
  · rename_i hshort
    rw [if_neg hshort]
    exact hvalid

/-! ## What a message is taken for -/

/-- What the message `msg` is taken for, that `author` sent with `text`. -/
structure Classified (author : CBuf MAX_USERNAME_LEN) (text : Bytes) (msg : Message) : Prop where
  /-- A notice: when the user has the server's name. -/
  system : systemMessageIsSystem msg = true ↔
    actionText text = none ∧ (author.bytes = lit "system" ∨ author.bytes = lit "系统")
  /-- A join or a leave: when the text says so besides. -/
  join_leave : systemMessageIsJoinLeave msg = true ↔
    actionText text = none ∧ (author.bytes = lit "system" ∨ author.bytes = lit "系统") ∧
      ∃ phrase ∈ joinLeavePhrases, phrase <:+: text
  /-- An action: when it is one, or the user is called `*`. -/
  action : msg.username.bytes = lit "*" ↔ actionText text ≠ none ∨ author.bytes = lit "*"
  /-- The actor of an action is its author. -/
  actor : actionText text ≠ none → author.bytes ++ [0x20] <+: msg.content.bytes
  /-- A module's: when the user is called like a module. -/
  module : lit "module:" <+: msg.username.bytes ↔ actionText text = none ∧ lit "module:" <+: author.bytes

theorem composeUserMessage_classified (now : Int) (author : CBuf MAX_USERNAME_LEN) {text : Bytes} (h0 : 0 ∉ text)
    (hlen : text.length < MAX_MESSAGE_LEN) : Classified author text (composeUserMessage now author.bytes text) := by
  rcases ha : actionText text with _ | t
  · obtain ⟨hu, hc⟩ := composeUserMessage_text now author ha h0 hlen
    have hsys := isSystem_iff (composeUserMessage now author.bytes text)
    rw [hu] at hsys
    constructor
    · simpa [ha] using hsys
    · rw [isJoinLeave_iff, hsys, hc]
      simp [ha]
    · simp [hu, ha]
    · exact fun h => absurd ha h
    · simp [hu, ha]
  · obtain ⟨hu, hc⟩ := composeUserMessage_action now author ha h0
    have hsys : systemMessageIsSystem (composeUserMessage now author.bytes text) = false := by
      rw [← Bool.not_eq_true, isSystem_iff, hu]
      decide
    constructor
    · simp [hsys, ha]
    · rw [isJoinLeave_iff]
      simp [hsys, ha]
    · simp [hu, ha]
    · intro _
      rw [hc]
      exact ⟨_, (List.append_cons _ _ _).symm⟩
    · rw [hu]
      simp only [ha, reduceCtorEq, false_and, iff_false]
      decide

variable {cfg : ServerConfig} {s : Server}

/-- Users have valid names, and rename themselves to valid names. -/
theorem ServerInv.userText_valid (hi : ServerInv cfg s) {p : Publication} {id : Nat} {o : BaseLib.Outcome PubStep}
    (hp : ⟨id, p, o⟩ ∈ s.board.pubs.history) {author : CBuf MAX_USERNAME_LEN} {text : Bytes}
    (h : p.origin.userText cfg.charSigned = some (author, text)) :
    isValidUsername cfg.charSigned author.bytes = true := by
  obtain ⟨j, hj, hinfo⟩ := Option.map_eq_some_iff.1 (hi.board.follows.known _ hp)
  have hknown := hi.origins j (List.mem_of_getElem? hj)
  rw [hinfo] at hknown
  match horigin : p.origin, h with
  | .chat (.insert username input), h =>
    cases h
    rw [horigin] at hknown
    rcases hknown with hclean | ⟨sshLogin, args, ho⟩
    · exact hclean.1.1
    · cases ho
  | .chat (.post sshLogin args), h =>
    cases h
    exact resolveExecUsername_valid _ _

/-- In every reachable state, a user's message is taken for what the name and the text make of it, and a
rename for a join or a leave when one of the names has a phrase of theirs in it. -/
theorem message_authorship (cfg : ServerConfig) (dir : LogDir) (now : Int) (s : Server)
    (h : Reachable (serverStep cfg) (.create dir now) s) :
    (∀ id p o author text, ⟨id, p, o⟩ ∈ s.board.pubs.history →
      p.origin.userText cfg.charSigned = some (author, text) →
      isValidUsername cfg.charSigned author.bytes = true ∧ Classified author text p.msg) ∧
    ∀ id p o oldName newName lang, ⟨id, p, o⟩ ∈ s.board.pubs.history →
      p.origin = .notice (.nick oldName newName) lang →
      (systemMessageIsJoinLeave p.msg = true ↔
        ∃ phrase ∈ joinLeavePhrases, phrase <:+: oldName.bytes ∨ phrase <:+: newName.bytes) := by
  have hi := serverInv_of_reachable h
  constructor
  · intro id p o author text hp huser
    obtain ⟨now, hmsg⟩ := hi.board.composed_entry hp
    obtain ⟨heq, h0, hlen⟩ := userText_message huser hmsg
    exact ⟨hi.userText_valid hp huser, heq ▸ composeUserMessage_classified now author h0 hlen⟩
  · intro id p o oldName newName lang hp hnick
    obtain ⟨now, hmsg⟩ := hi.board.composed_entry hp
    rw [hnick, Origin.message, Option.some.injEq] at hmsg
    exact hmsg ▸ isJoinLeave_nick now oldName newName lang

/-- A client that calls itself `system` and then sends "bob left the room". -/
def systemRun : List ServerEvent :=
  .connect :: (lit "system").map (.promptKey 0 · []) ++ [.join 0 1752500000, .broadcast 0, .save 0 (.written true)] ++
    (lit "bob left the room").map (fun b => .insertKey 0 (.byte b [])) ++
    [.enter 0 1752500001, .save 1 (.written true), .broadcast 1]

/-- What it sent. -/
def systemSent : Publication where
  actor := .session 0
  origin := .chat (.insert (CBuf.copy _ (lit "system")) (CBuf.copy _ (lit "bob left the room")))
  msg := ⟨1752500001, CBuf.copy _ (lit "system"), CBuf.copy _ (lit "bob left the room")⟩

theorem message_authorship_system :
    ∃ s, exec (serverStep plainConfig) (.create ⟨none, none⟩ 1752500000) systemRun = some s ∧
      Classified (CBuf.copy _ (lit "system")) (lit "bob left the room") systemSent.msg := by
  have hsome : (exec (serverStep plainConfig) (.create ⟨none, none⟩ 1752500000) systemRun).any
      (fun s => decide (⟨1, systemSent, .done .broadcast⟩ ∈ s.board.pubs.history)) = true := by
    decide +kernel
  obtain ⟨s, hs, hp⟩ := (Option.any_eq_true _ _).1 hsome
  exact ⟨s, hs, ((message_authorship plainConfig ⟨none, none⟩ 1752500000 s ⟨systemRun, hs⟩).1 1 systemSent _ _ _
    (of_decide_eq_true hp) (by decide)).2⟩

/-- It is in the room, and passes for a notice that bob left. -/
theorem system_forged :
    (∃ s, exec (serverStep plainConfig) (.create ⟨none, none⟩ 1752500000) systemRun = some s ∧
      (1, systemSent) ∈ Jobs.took .broadcast s.board.pubs.history ∧ systemSent.msg ∈ s.board.messages) ∧
    isValidUsername true (lit "system") = true ∧ systemMessageIsSystem systemSent.msg = true ∧
    systemMessageIsJoinLeave systemSent.msg = true := by
  refine ⟨?_, by decide, by decide, by decide +kernel⟩
  have hsome : (exec (serverStep plainConfig) (.create ⟨none, none⟩ 1752500000) systemRun).any (fun s =>
      decide ((1, systemSent) ∈ Jobs.took .broadcast s.board.pubs.history ∧ systemSent.msg ∈ s.board.messages)) =
        true := by
    decide +kernel
  obtain ⟨s, hs, hp⟩ := (Option.any_eq_true _ _).1 hsome
  exact ⟨s, hs, of_decide_eq_true hp⟩

end Tnt
