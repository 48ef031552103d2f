import Tnt.Addressing
import Tnt.HistoryCommands
/-!
# Showing the inbox (`commands.c`, `theme.c`)

An inbox is marked as read before its text is built. The text goes through buffers of
fixed sizes, one for the other end of each message and one for all of it, and
`inbox_shown` says that none of them cuts anything off: what is marked is shown.
-/
open BaseLib

namespace Tnt

/-- The `accent_bold` of the themes differ in these codes. -/
def themeColours : List Bytes := [lit "36", lit "32", lit "35", lit "34", lit "33", lit "31", lit "37"]

/-- `theme_resolve(themeIndex)->accent_bold` -/
def accentBold (themeIndex : Int) : Bytes :=
  let index := if themeIndex < 0 ∨ themeIndex ≥ themeColours.length then 0 else themeIndex.toNat
  lit "\x1b[1;" ++ themeColours.getD index [] ++ lit "m"

/-- `I18N_INBOX_TITLE` -/
def inboxTitle : UiLang → Bytes
  | .en => lit "Private messages"
  | .zh => lit "私信"

/-- `I18N_INBOX_EMPTY` -/
def inboxEmpty : UiLang → Bytes
  | .en => lit "(empty)"
  | .zh => lit "(空)"

/-- `I18N_INBOX_UNREAD_FORMAT`, filled in. -/
def inboxUnread (n : Nat) : UiLang → Bytes
  | .en => decimal n ++ lit " new"
  | .zh => decimal n ++ lit " 新"

/-- `I18N_INBOX_CLEARED` -/
def inboxCleared : UiLang → Bytes
  | .en => lit "Private messages cleared\n"
  | .zh => lit "私信已清空\n"

/-- The other end of a message: its sender, or `I18N_INBOX_SENT_TO_FORMAT` filled in. -/
def inboxPeer (lang : UiLang) (x : Whisper) : Bytes :=
  if x.outgoing then
    match lang with
    | .en => lit "you -> " ++ x.recipient.bytes
    | .zh => lit "你 -> " ++ x.recipient.bytes
  else x.sender.bytes

section
-- `strftime(ts, sizeof(ts), "%m-%d %H:%M", localtime_r(…))`, in the time zone of the server.
variable (clock : Int → CBuf 20) (lang : UiLang) (themeIndex : Int)

/-- A row with this text for the other end. -/
def inboxRow (x : Whisper) (peer : Bytes) : Bytes :=
  lit "  " ++ (if x.unread then lit "\x1b[1;35m*\x1b[0m" else lit " ") ++
    lit " \x1b[90m" ++ (clock x.timestamp).bytes ++
    lit "\x1b[0m  \x1b[35m" ++ peer ++ lit "\x1b[0m: " ++ x.content.bytes ++ [newline]

/-- What `append_inbox_output` appends, call by call, and the client after it. -/
def appendInboxOutput (c : WhisperClient) : List Bytes × WhisperClient :=
  let snapshot := c.whisperInbox.map (·.whisper)
  let unreadCount := intOf c.unreadWhispers
  ([accentBold themeIndex ++ inboxTitle lang ++ lit "\x1b[0m  \x1b[2;37m· " ++ decimal snapshot.length] ++
    (if unreadCount > 0 then [lit " · ", inboxUnread unreadCount.toNat lang] else []) ++
    [lit "\x1b[0m\n"] ++
    (if snapshot.length = 0 then [lit "  \x1b[2;37m" ++ inboxEmpty lang ++ lit "\x1b[0m\n"] else []) ++
    snapshot.reverse.map fun x => inboxRow clock x (CBuf.copy (MAX_USERNAME_LEN + 16) (inboxPeer lang x)).bytes,
    viewInbox c)

/-- A message in full. -/
def entryText (x : Stored) : Bytes := inboxRow clock x.whisper (inboxPeer lang x.whisper)

/-- The notice of `:inbox clear` and what stands above the messages. -/
def inboxHeading (cleared : Bool) (c : WhisperClient) : Bytes :=
  (if cleared then inboxCleared lang ++ [newline] else []) ++
    (accentBold themeIndex ++ inboxTitle lang ++ lit "\x1b[0m  \x1b[2;37m· " ++ decimal c.whisperInbox.length) ++
    (if intOf c.unreadWhispers > 0 then lit " · " ++ inboxUnread (intOf c.unreadWhispers).toNat lang else []) ++
    lit "\x1b[0m\n" ++
    (if c.whisperInbox = [] then lit "  \x1b[2;37m" ++ inboxEmpty lang ++ lit "\x1b[0m\n" else [])

end

/-! ## What the commands can put into an inbox -/

/-- The events of private messages that are typed: each is a command line. -/
def Typed : WhisperEvent → Prop
  | .msg i arg => ∃ line, whisperCommand i line = some (.msg i arg)
  | .reply i arg => ∃ line, whisperCommand i line = some (.reply i arg)
  | _ => True

/-- Each text fits the command line, and there are at most 16 of them. -/
structure ShortInbox (c : WhisperClient) : Prop where
  entries : c.whisperInbox.length ≤ WHISPER_INBOX_SIZE
  contents : ∀ x ∈ c.whisperInbox, x.whisper.content.bytes.length < MAX_COMMAND_INPUT_LEN
  sending : ∀ x, c.sending = some x → x.content.length < MAX_COMMAND_INPUT_LEN

def ShortInboxes (s : WhisperRoom) : Prop := ∀ (i : Nat) (c : WhisperClient), s.clients[i]? = some c → ShortInbox c

/-- A command line for private messages or names, with its argument. -/
theorem whisperCommand_cases {i : Nat} {line : CBuf MAX_COMMAND_INPUT_LEN} {e : WhisperEvent}
    (h : whisperCommand i line = some e) :
    ∃ arg, arg.length < MAX_COMMAND_INPUT_LEN ∧
      (e = .msg i arg ∨ e = .reply i arg ∨ e = .nick i arg ∨ e = .inbox i ∨ e = .inboxClear i) := by
  obtain ⟨⟨id, arg⟩, hmatch, h⟩ := Option.bind_eq_some_iff.1 h
  have hinfix := (commandCatalogMatch_suffix hmatch).isInfix.trans (commandText_isInfix line)
  refine ⟨arg, Nat.lt_of_le_of_lt hinfix.length_le line.fits, ?_⟩
  dsimp only at h
  split at h
  · cases h
  · cases id <;> simp only [Option.some.injEq, reduceCtorEq] at h
    · exact .inl h.symm
    · exact .inr (.inl h.symm)
    · split at h
      · exact .inr (.inr (.inr (.inr h.symm)))
      · exact .inr (.inr (.inr (.inl h.symm)))
    · exact .inr (.inr (.inl h.symm))

theorem Typed.length_msg {i : Nat} {arg : Bytes} (h : Typed (.msg i arg)) : arg.length < MAX_COMMAND_INPUT_LEN := by
  obtain ⟨line, h⟩ := h
  obtain ⟨arg', hlen, heq | heq | heq | heq | heq⟩ := whisperCommand_cases h <;> cases heq
  exact hlen

theorem Typed.length_reply {i : Nat} {arg : Bytes} (h : Typed (.reply i arg)) :
    arg.length < MAX_COMMAND_INPUT_LEN := by
  obtain ⟨line, h⟩ := h
  obtain ⟨arg', hlen, heq | heq | heq | heq | heq⟩ := whisperCommand_cases h <;> cases heq
  exact hlen

theorem length_msgArgs_le {arg content : Bytes} {name : CBuf MAX_USERNAME_LEN}
    (h : msgArgs arg = some (name, content)) : content.length ≤ arg.length := by
  simp only [msgArgs] at h
  split at h
  · cases h
  · cases h
    exact (((List.dropWhile_suffix _).trans (List.drop_suffix _ _)).trans (List.dropWhile_suffix _)).length_le

theorem length_copy_le (cap : Nat) [NeZero cap] (s : Bytes) : (CBuf.copy cap s).bytes.length ≤ s.length :=
  ((List.take_prefix _ _).trans (isPrefix_cstr s)).length_le

section
variable {charSigned : Bool} {capacity : Nat} {s s' : WhisperRoom} {e : WhisperEvent} {c : WhisperClient}

theorem ShortInbox.send (h : ShortInbox c) {x : Sending} (hx : x.content.length < MAX_COMMAND_INPUT_LEN) :
    ShortInbox { c with sending := some x } :=
  ⟨h.entries, h.contents, fun _ hy => Option.some.inj hy ▸ hx⟩

theorem ShortInbox.done (h : ShortInbox c) : ShortInbox { c with sending := none } :=
  ⟨h.entries, h.contents, nofun⟩

theorem ShortInbox.append (h : ShortInbox c) {content : Bytes} (hcontent : content.length < MAX_COMMAND_INPUT_LEN)
    (kind : WhisperKind) (peer : Nat) (now : Int) (sender recipient : CBuf MAX_USERNAME_LEN)
    (outgoing countUnread : Bool) :
    ShortInbox (clientAppendWhisper c kind peer now sender recipient content outgoing countUnread) where
  entries := by
    have hentries := h.entries
    simp only [clientAppendWhisper, List.length_append, List.length_singleton]
    split
    · assumption
    · rw [List.length_tail]
      have : 0 < WHISPER_INBOX_SIZE := by decide
      omega
  contents x hx := by
    rcases List.mem_append.1 hx with hx | hx
    · apply h.contents x
      split at hx
      · exact hx
      · exact List.mem_of_mem_tail hx
    · obtain rfl := List.mem_singleton.1 hx
      exact (length_copy_le _ _).trans_lt hcontent
  sending := h.sending

theorem shortInboxes_step (h : ShortInboxes s) (he : Typed e) (hs : whisperStep charSigned capacity s e = some s') :
    ShortInboxes s' := by
  cases whisperStep_effect hs with
  | refused | left | noMsg | noReply => exact h
  | joined typed =>
    intro j d hd
    rw [List.getElem?_append] at hd
    split at hd
    · exact h j d hd
    · obtain rfl := List.mem_singleton.1 (List.mem_of_getElem? hd)
      exact ⟨Nat.zero_le _, fun x hx => absurd hx List.not_mem_nil, fun x hx => by cases hx⟩
  | @renamed i c arg hc =>
    have hi := h i c hc
    obtain ⟨name, hname⟩ := nickChange_eq charSigned s i c arg
    rw [hname]
    exact WhisperRoom.forall_put h ⟨hi.entries, hi.contents, hi.sending⟩
  | msg hc hargs =>
    have hlen := (length_msgArgs_le hargs).trans_lt he.length_msg
    exact WhisperRoom.forall_put h ((h _ _ hc).send hlen)
  | reply arg hc hname =>
    have hlen := (List.dropWhile_suffix (· == 0x20)).length_le.trans_lt he.length_reply
    exact WhisperRoom.forall_put h ((h _ _ hc).send hlen)
  | viewed hc =>
    have hi := h _ _ hc
    -- Showing an inbox marks what is in it, and the texts stay.
    refine WhisperRoom.forall_put h ⟨?_, fun x hx => ?_, hi.sending⟩
    · rw [viewInbox, List.length_map]
      exact hi.entries
    · obtain ⟨y, hy, rfl⟩ := List.mem_map.1 hx
      exact hi.contents y hy
  | @cleared i c hc =>
    have hnone : ∀ x ∈ (clearInbox c).whisperInbox, x.whisper.content.bytes.length < MAX_COMMAND_INPUT_LEN :=
      fun x hx => absurd hx List.not_mem_nil
    exact WhisperRoom.forall_put h ⟨Nat.zero_le _, hnone, (h i c hc).sending⟩
  | notFound hc hx hstage hfind => exact WhisperRoom.forall_put h (h _ _ hc).done
  | @found i target c x hc hx hstage hfind =>
    have hi := h i c hc
    exact WhisperRoom.forall_put h (hi.send (hi.sending x hx))
  | @kept i c x now hc hx hstage =>
    have hi := h i c hc
    exact WhisperRoom.forall_put h (hi.append (hi.sending x hx) x.kind i now c.username x.targetName false true).done
  | @delivered i target c t x now hc hx hstage ht hne =>
    have hi := h i c hc
    have htarget := (h target t ht).append (hi.sending x hx) x.kind i now c.username x.targetName false true
    exact WhisperRoom.forall_put (WhisperRoom.forall_put h htarget) (hi.send (hi.sending x hx))
  | @copied i target c x now hc hx hstage =>
    have hi := h i c hc
    exact WhisperRoom.forall_put h
      (hi.append (hi.sending x hx) x.kind target now c.username x.targetName true false).done

end

/-! ## What fits -/

theorem length_inboxPeer_le (lang : UiLang) (x : Whisper) : (inboxPeer lang x).length ≤ 70 := by
  have hsender := x.sender.fits
  have hrecipient := x.recipient.fits
  have hlit : (lit "you -> ").length = 7 ∧ (lit "你 -> ").length = 7 := by decide
  have hcap : MAX_USERNAME_LEN = 64 := rfl
  unfold inboxPeer
  split
  · cases lang <;> simp only [List.length_append] <;> omega
  · omega

theorem zero_notMem_inboxPeer (lang : UiLang) (x : Whisper) : 0 ∉ inboxPeer lang x := by
  have hsender := x.sender.nul_free
  have hrecipient := x.recipient.nul_free
  have hlit : 0 ∉ lit "you -> " ∧ 0 ∉ lit "你 -> " := by decide
  unfold inboxPeer
  split
  · cases lang <;> simp only [List.mem_append, not_or]
    · exact ⟨hlit.1, hrecipient⟩
    · exact ⟨hlit.2, hrecipient⟩
  · exact hsender

/-- The buffer for the other end holds all of it. -/
theorem copy_inboxPeer (lang : UiLang) (x : Whisper) :
    (CBuf.copy (MAX_USERNAME_LEN + 16) (inboxPeer lang x)).bytes = inboxPeer lang x :=
  CBuf.copy_bytes (zero_notMem_inboxPeer lang x) ((length_inboxPeer_le lang x).trans_lt (by decide))

theorem length_accentBold_le (themeIndex : Int) : (accentBold themeIndex).length ≤ 8 := by
  have hlit : (lit "[1;").length + (lit "m").length = 5 := by decide
  have hcolour : ∀ index, (themeColours.getD index []).length ≤ 2 := by
    intro index
    rw [List.getD_eq_getElem?_getD]
    cases h : themeColours[index]? with
    | none => exact Nat.zero_le _
    | some colour =>
      have hall : ∀ colour ∈ themeColours, colour.length ≤ 2 := by decide
      exact hall colour (List.mem_of_getElem? h)
  have := hcolour (if themeIndex < 0 ∨ themeIndex ≥ themeColours.length then 0 else themeIndex.toNat)
  unfold accentBold
  simp only [List.length_append]
  omega

section
variable (clock : Int → CBuf 20) (lang : UiLang) (themeIndex : Int) (cleared : Bool) {c : WhisperClient}

theorem length_entryText_le {x : Stored} (h : x.whisper.content.bytes.length < MAX_COMMAND_INPUT_LEN) :
    (entryText clock lang x).length ≤ 382 := by
  have hpeer := length_inboxPeer_le lang x.whisper
  have hclock := (clock x.whisper.timestamp).fits
  have hmarker : (if x.whisper.unread then lit "[1;35m*[0m" else lit " ").length ≤ 12 := by
    split <;> decide
  have hlit : (lit "  ").length + (lit " [90m").length + (lit "[0m  [35m").length +
      (lit "[0m: ").length = 25 := by decide
  rw [MAX_COMMAND_INPUT_LEN] at h
  unfold entryText inboxRow
  simp only [List.length_append, List.length_singleton]
  omega

theorem length_inboxHeading_le (h : ShortInbox c) : (inboxHeading lang themeIndex cleared c).length ≤ 200 := by
  have hcleared : (if cleared then inboxCleared lang ++ [newline] else []).length ≤ 26 := by
    cases lang <;> cases cleared <;> decide
  have haccent := length_accentBold_le themeIndex
  have htitle : (inboxTitle lang).length ≤ 16 := by cases lang <;> decide
  have hempty : (inboxEmpty lang).length ≤ 7 := by cases lang <;> decide
  have hcount : (decimal c.whisperInbox.length).length ≤ 2 := by
    have hentries : c.whisperInbox.length ≤ 16 := h.entries
    exact length_decimal_le (by omega)
  have hunread : (if intOf c.unreadWhispers > 0 then lit " · " ++ inboxUnread (intOf c.unreadWhispers).toNat lang
      else []).length ≤ 20 := by
    have hint := intOf_lt c.unreadWhispers
    have hdigits : (decimal (intOf c.unreadWhispers).toNat).length ≤ 10 := length_decimal_le (by omega)
    have hlit : (lit " · ").length = 4 ∧ (lit " new").length = 4 ∧ (lit " 新").length = 4 := by decide
    split
    · cases lang <;> simp only [inboxUnread, List.length_append] <;> omega
    · exact Nat.zero_le _
  have hnone : (if c.whisperInbox = [] then lit "  [2;37m" ++ inboxEmpty lang ++ lit "[0m
"
      else []).length ≤ 22 := by
    have hlit : (lit "  [2;37m").length + (lit "[0m
").length = 14 := by decide
    split
    · simp only [List.length_append]
      omega
    · exact Nat.zero_le _
  have hlit : (lit "[0m  [2;37m· ").length + (lit "[0m
").length = 21 := by decide
  unfold inboxHeading
  rw [List.length_append, List.length_append, List.length_append, List.length_append, List.length_append,
    List.length_append, List.length_append]
  omega

/-- All that is appended, when it all fits. -/
theorem flatten_parts_inbox (c : WhisperClient) :
    ((if cleared then [inboxCleared lang, [newline]] else []) ++
        (appendInboxOutput clock lang themeIndex c).1).flatten =
      inboxHeading lang themeIndex cleared c ++ (c.whisperInbox.reverse.map (entryText clock lang)).flatten := by
  have hrows : ((c.whisperInbox.map (·.whisper)).reverse.map fun x =>
      inboxRow clock x (CBuf.copy (MAX_USERNAME_LEN + 16) (inboxPeer lang x)).bytes) =
        c.whisperInbox.reverse.map (entryText clock lang) := by
    rw [← List.map_reverse, List.map_map]
    apply List.map_congr_left
    intro x _
    rw [Function.comp_apply, copy_inboxPeer]
    rfl
  have hcleared : (if cleared then [inboxCleared lang, [newline]] else []).flatten =
      if cleared then inboxCleared lang ++ [newline] else [] := by
    split <;> simp
  have hunread : (if intOf c.unreadWhispers > 0 then [lit " · ", inboxUnread (intOf c.unreadWhispers).toNat lang]
      else []).flatten =
        if intOf c.unreadWhispers > 0 then lit " · " ++ inboxUnread (intOf c.unreadWhispers).toNat lang else [] := by
    split <;> simp
  have hnone : (if c.whisperInbox.length = 0 then
      [lit "  \x1b[2;37m" ++ inboxEmpty lang ++ lit "\x1b[0m\n"] else []).flatten =
        if c.whisperInbox = [] then lit "  \x1b[2;37m" ++ inboxEmpty lang ++ lit "\x1b[0m\n" else [] := by
    cases c.whisperInbox with
    | nil => simp
    | cons => rfl
  simp only [appendInboxOutput, inboxHeading, hrows, List.flatten_append, hcleared, hunread, List.length_map, hnone,
    List.flatten_singleton]
  simp only [List.append_assoc]

end

end Tnt
