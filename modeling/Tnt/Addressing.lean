import Tnt.CommandLine
import Tnt.Inbox
/-!
# Who a private message is for (`commands.c`)

A name may have spaces in it, and `:msg` takes its first argument up to the first
space. `addressed_iff` says what a command line with a client's name does for any
name that a client can have: the text comes to a client of that name, and to nobody
else, if and only if the name is a single word.
-/
open BaseLib

namespace Tnt

/-! ## Command lines -/

/-- `commands_dispatch`, as far as private messages and names go: the event that a command line of
client `i` is. -/
def whisperCommand (i : Nat) (line : CBuf MAX_COMMAND_INPUT_LEN) : Option WhisperEvent :=
  (commandCatalogMatch (commandText line)).bind fun (id, arg) =>
    if !commandCatalogArgsValid id arg then none
    else
      match id with
      | .msg => some (.msg i arg)
      | .reply => some (.reply i arg)
      | .inbox => some (if skipSpaces arg = lit "clear" then .inboxClear i else .inbox i)
      | .nick => some (.nick i arg)
      | _ => none

section
variable (charSigned : Bool) (capacity : Nat) (s : WhisperRoom) (i : Nat)

/-- The steps of client `i` for a command line, when no other client comes between them. -/
def dispatchSteps (line : CBuf MAX_COMMAND_INPUT_LEN) (now later : Int) : List WhisperEvent :=
  enabled (whisperStep charSigned capacity) s
    ((whisperCommand i line).toList ++ [.lookup i, .deliver i now, .copy i later])

/-- What the steps put into the inbox of client `k`. -/
def putInto (es : List WhisperEvent) (k : Nat) : List InboxEntry :=
  arrived (heard (whisperStep charSigned capacity) (WhisperRoom.inboxEvents k) s es)

/-- The newest message in the inbox of client `k` after the steps. -/
def newestStored (es : List WhisperEvent) (k : Nat) : Option Stored :=
  ((exec (whisperStep charSigned capacity) s es).bind (·.clients[k]?)).bind (·.whisperInbox.getLast?)

/-- A client of the name gets the text from client `i`, and a client of another name gets nothing, except for the copy
of `i` itself. -/
structure Addressed (name : CBuf MAX_USERNAME_LEN) (text : Bytes) (es : List WhisperEvent) : Prop where
  reached : ∃ j ∈ s.room, s.isNamed name j = true ∧ ∃ e ∈ putInto charSigned capacity s es j,
    e.outgoing = false ∧ e.content.bytes = text ∧
      newestStored charSigned capacity s es j = some (InboxEntry.stored (e, true))
  others : ∀ k, s.isNamed name k = false → ∀ e ∈ putInto charSigned capacity s es k, k = i ∧ e.outgoing = true

end

/-- The names that `read_username` and `:nick` accept. -/
def Accepted (charSigned : Bool) (name : CBuf MAX_USERNAME_LEN) : Prop :=
  (∃ typed, chooseUsername charSigned typed = name) ∨ ∃ arg, validatedName charSigned arg = .ok name

/-- A text that is not empty and has no spaces around it. -/
def Trimmed (text : Bytes) : Prop := text ≠ [] ∧ text.head? ≠ some 0x20 ∧ text.getLast? ≠ some 0x20

theorem Accepted.valid {charSigned : Bool} {name : CBuf MAX_USERNAME_LEN} (h : Accepted charSigned name) :
    isValidUsername charSigned name.bytes = true := by
  rcases h with ⟨typed, rfl⟩ | ⟨arg, h⟩
  · exact chooseUsername_valid charSigned typed
  · exact validatedName_valid h

/-- A valid name is not empty and does not begin with a space. -/
theorem head_of_valid {charSigned : Bool} {name : Bytes} (h : isValidUsername charSigned name = true) :
    name ≠ [] ∧ name.head? ≠ some 0x20 := by
  unfold isValidUsername at h
  cases name with
  | nil => simp at h
  | cons b t =>
    refine ⟨List.cons_ne_nil b t, ?_⟩
    rintro hb
    obtain rfl := Option.some.inj hb
    simp [byteAt] at h

/-! ## From the line to its two arguments -/

theorem skipSpaces_of_head {s : Bytes} (h : s.head? ≠ some 0x20) : skipSpaces s = s := by
  cases s with
  | nil => rfl
  | cons b t =>
    have hb : (b == 0x20) = false := by
      rw [beq_eq_false_iff_ne]
      rintro rfl
      exact h rfl
    rw [skipSpaces, List.dropWhile_cons, hb]
    rfl

/-- Something is left of a text that has more than spaces, whatever stands in front of it. -/
theorem skipSpaces_ne_nil {text : Bytes} (htext : Trimmed text) (rest : Bytes) :
    skipSpaces (rest ++ 0x20 :: text) ≠ [] := by
  obtain ⟨hne, hhead, -⟩ := htext
  obtain ⟨b, t, rfl⟩ := List.exists_cons_of_ne_nil hne
  intro h
  have hb := List.dropWhile_eq_nil_iff.1 h b (by simp)
  obtain rfl := beq_iff_eq.1 hb
  exact hhead rfl

/-- The spaces behind a line go, and nothing else does. -/
theorem commandText_eq {line : CBuf MAX_COMMAND_INPUT_LEN} {text spaces : Bytes} (hline : line.bytes = text ++ spaces)
    (htext : Trimmed text) (hcolon : text.head? ≠ some 0x3A) (hspaces : ∀ b ∈ spaces, b = 0x20) :
    commandText line = text := by
  obtain ⟨hne, hhead, hlast⟩ := htext
  have hfront : skipSpaces (text ++ spaces) = text ++ spaces := by
    apply skipSpaces_of_head
    rwa [List.head?_append_of_ne_nil _ hne]
  have hback : skipSpaces (text ++ spaces).reverse = text.reverse := by
    rw [List.reverse_append, skipSpaces, List.dropWhile_append_of_pos]
    · rw [← skipSpaces]
      apply skipSpaces_of_head
      rwa [List.head?_reverse]
    · intro b hb
      exact beq_iff_eq.2 (hspaces b (List.mem_reverse.1 hb))
  simp only [commandText, hline, hfront, hback, List.reverse_reverse]
  split
  · exact absurd rfl hcolon
  · rfl

/-- The line is taken as it is typed. -/
theorem commandText_msg {line : CBuf MAX_COMMAND_INPUT_LEN} {rest : Bytes} (hline : line.bytes = lit "msg " ++ rest)
    (hne : rest ≠ []) (hlast : rest.getLast? ≠ some 0x20) : commandText line = lit "msg " ++ rest := by
  have htext : Trimmed (lit "msg " ++ rest) := by
    refine ⟨List.append_ne_nil_of_right_ne_nil _ hne, ?_, ?_⟩
    · show some 0x6D ≠ some 0x20
      decide
    · rwa [List.getLast?_append_of_ne_nil _ hne]
  refine commandText_eq (hline.trans (List.append_nil _).symm) htext ?_ (List.forall_mem_nil _)
  show some 0x6D ≠ some 0x3A
  decide

theorem commandCatalogMatch_msg (rest : Bytes) :
    commandCatalogMatch (lit "msg " ++ rest) = some (.msg, skipSpaces rest) := rfl

/-- The first word of the argument is the name, and the rest is the text. -/
theorem msgArgs_word {word rest : Bytes} (hne : word ≠ []) (hword : 0x20 ∉ word)
    (hfits : word.length < MAX_USERNAME_LEN) (hrest : skipSpaces rest ≠ []) :
    msgArgs (word ++ 0x20 :: rest) = some (CBuf.copy MAX_USERNAME_LEN word, skipSpaces rest) := by
  have hhead : (word ++ 0x20 :: rest).head? ≠ some 0x20 := by
    obtain ⟨b, t, rfl⟩ := List.exists_cons_of_ne_nil hne
    intro h
    obtain rfl := Option.some.inj h
    exact hword List.mem_cons_self
  have hskip : (word ++ 0x20 :: rest).dropWhile (· == 0x20) = word ++ 0x20 :: rest := skipSpaces_of_head hhead
  have htake : (word ++ 0x20 :: rest).takeWhile (· != 0x20) = word := by
    rw [List.takeWhile_append_of_pos fun b hb => bne_iff_ne.2 (ne_of_mem_of_not_mem hb hword)]
    exact List.append_nil word
  have hbehind : (0x20 :: rest : Bytes).dropWhile (· == 0x20) = skipSpaces rest := rfl
  simp only [msgArgs, hskip, htake, List.take_of_length_le (Nat.le_sub_one_of_lt hfits), List.drop_left, hbehind, hne,
    hrest, or_self, if_false]

/-! ## The steps -/

namespace WhisperRoom

variable {s : WhisperRoom} {i : Nat} {c d : WhisperClient}

theorem getElem_put (hc : s.clients[i]? = some c) (d : WhisperClient) : (s.put i d).clients[i]? = some d := by
  obtain ⟨hi, -⟩ := List.getElem?_eq_some_iff.1 hc
  rw [put, List.getElem?_set_self hi]

/-- A client that keeps its name keeps everyone's. -/
theorem isNamed_put (hc : s.clients[i]? = some c) (hd : d.username = c.username) : (s.put i d).isNamed = s.isNamed := by
  funext name j
  unfold isNamed username put
  rw [List.getElem?_set]
  split
  · rename_i hij
    subst hij
    obtain ⟨hi, -⟩ := List.getElem?_eq_some_iff.1 hc
    rw [if_pos hi, hc, Option.map_some, Option.map_some, hd]
  · rfl

theorem exists_hasInbox (s : WhisperRoom) (i : Nat) : ∃ b, HasInbox i s b := by
  cases hc : s.clients[i]? with
  | none => exact ⟨.empty, by rw [HasInbox, hc]; rfl⟩
  | some c =>
    have hentries : c.whisperInbox = (c.whisperInbox.map fun x =>
        ((⟨x.whisper.timestamp, x.whisper.sender, x.whisper.recipient, x.whisper.content, x.whisper.outgoing, x.kind⟩,
          x.whisper.unread) : InboxEntry × Bool)).map InboxEntry.stored := by
      rw [List.map_map]
      exact (List.map_id _).symm
    exact ⟨⟨_, c.unreadWhispers, some ⟨0, c.lastWhisperPeer, c.lastWhisperPeer, CBuf.copy _ [], false, .msg⟩⟩,
      (HasInbox.of_some hc).2 ⟨hentries, rfl, rfl⟩⟩

end WhisperRoom

section
variable {charSigned : Bool} {capacity : Nat} {s : WhisperRoom} {i : Nat} {c : WhisperClient}
  {line : CBuf MAX_COMMAND_INPUT_LEN} {arg content : Bytes} {name : CBuf MAX_USERNAME_LEN} {now later : Int}

/-- What is left to do of a private message once its target is found. -/
theorem heard_deliver {x : Sending} {t : Nat} {u : WhisperClient} (hc : s.clients[i]? = some c)
    (hx : c.sending = some x) (hstage : x.stage = .deliver t) (ht : s.clients[t]? = some u) (k : Nat) :
    heard (whisperStep charSigned capacity) (WhisperRoom.inboxEvents k) s
        (enabled (whisperStep charSigned capacity) s [.deliver i now, .copy i later]) =
      (if t = k then [.append (x.entry c now false)] else []) ++
        if t ≠ i ∧ i = k then [.append (x.entry c later true)] else [] := by
  by_cases hself : t = i
  · subst hself
    obtain ⟨d, hdone, hdeliver⟩ : ∃ d, d.sending = none ∧
        whisperStep charSigned capacity s (.deliver t now) = some (s.put t d) := by
      refine ⟨{ clientAppendWhisper c x.kind t now c.username x.targetName x.content false true with
        sending := none }, rfl, ?_⟩
      simp [whisperStep, hc, hx, hstage]
    have hd := WhisperRoom.getElem_put hc d
    rw [heard_enabled_some _ hdeliver, heard_enabled_none _ (by simp [whisperStep, hd, hdone]),
      inboxEvents_deliver hc hx hstage, if_neg fun h : t ≠ t ∧ t = k => h.1 rfl]
    rfl
  · obtain ⟨s', hs'⟩ : ∃ s', s' =
      s.put t (clientAppendWhisper u x.kind i now c.username x.targetName x.content false true) := ⟨_, rfl⟩
    obtain ⟨d, hd⟩ : ∃ d, d = { c with sending := some { x with stage := .copy t } } := ⟨_, rfl⟩
    have hdeliver : whisperStep charSigned capacity s (.deliver i now) = some (s'.put i d) := by
      simp [whisperStep, hc, hx, hstage, ht, hself, hs', hd]
    have hc' : s'.clients[i]? = some c := by
      rw [hs', WhisperRoom.put, List.getElem?_set_ne hself, hc]
    have hd' := WhisperRoom.getElem_put hc' d
    have hsending : d.sending = some { x with stage := .copy t } := hd ▸ rfl
    obtain ⟨s'', hcopy⟩ : ∃ s'', whisperStep charSigned capacity (s'.put i d) (.copy i later) = some s'' := by
      simp [whisperStep, hd', hsending]
    rw [heard_enabled_some _ hdeliver, heard_enabled_some _ hcopy, inboxEvents_deliver hc hx hstage,
      inboxEvents_copy hd' hsending]
    have hentry : ({ x with stage := .copy t } : Sending).entry d later true = x.entry c later true := hd ▸ rfl
    rw [hentry]
    simp [hself, enabled, heard]

/-- What `:msg` does to the inbox of client `k`. -/
theorem heard_msg (hi : s.idle i = some c) (hcommand : whisperCommand i line = some (.msg i arg))
    (hargs : msgArgs arg = some (name, content)) (k : Nat) :
    heard (whisperStep charSigned capacity) (WhisperRoom.inboxEvents k) s
        (dispatchSteps charSigned capacity s i line now later) =
      (s.room.find? (s.isNamed name)).elim [] fun t =>
        (if t = k then [.append (Sending.entry ⟨.msg, name, content, .lookup⟩ c now false)] else []) ++
          if t ≠ i ∧ i = k then [.append (Sending.entry ⟨.msg, name, content, .lookup⟩ c later true)] else [] := by
  have hc := idle_some hi
  obtain ⟨c₁, hstate⟩ : ∃ c₁, c₁ = { c with sending := some ⟨.msg, name, content, .lookup⟩ } := ⟨_, rfl⟩
  have hmsg : whisperStep charSigned capacity s (.msg i arg) = some (s.put i c₁) := by
    simp [whisperStep, hi, hargs, hstate]
  have hc₁ := WhisperRoom.getElem_put hc c₁
  have hsending : c₁.sending = some ⟨.msg, name, content, .lookup⟩ := hstate ▸ rfl
  have hnamed : (s.put i c₁).isNamed = s.isNamed := WhisperRoom.isNamed_put hc (hstate ▸ rfl)
  have hroom : (s.put i c₁).room = s.room := rfl
  rw [dispatchSteps, hcommand, Option.toList_some, List.singleton_append, heard_enabled_some _ hmsg]
  cases hfind : s.room.find? (s.isNamed name) with
  | none =>
    obtain ⟨c₂, hdone, hlookup⟩ : ∃ c₂, c₂.sending = none ∧
        whisperStep charSigned capacity (s.put i c₁) (.lookup i) = some ((s.put i c₁).put i c₂) := by
      refine ⟨{ c₁ with sending := none }, rfl, ?_⟩
      simp [whisperStep, hc₁, hsending, hroom, hnamed, hfind]
    have hc₂ := WhisperRoom.getElem_put hc₁ c₂
    rw [heard_enabled_some _ hlookup, heard_enabled_none _ (by simp [whisperStep, hc₂, hdone]),
      heard_enabled_none _ (by simp [whisperStep, hc₂, hdone])]
    rfl
  | some t =>
    obtain ⟨c₂, hname, hdeliver, hlookup⟩ : ∃ c₂, c₂.username = c.username ∧
        c₂.sending = some ⟨.msg, name, content, .deliver t⟩ ∧
        whisperStep charSigned capacity (s.put i c₁) (.lookup i) = some ((s.put i c₁).put i c₂) := by
      refine ⟨{ c₁ with sending := some ⟨.msg, name, content, .deliver t⟩ }, hstate ▸ rfl, rfl, ?_⟩
      simp [whisperStep, hc₁, hsending, hroom, hnamed, hfind]
    have hc₂ := WhisperRoom.getElem_put hc₁ c₂
    obtain ⟨u, hu⟩ : ∃ u, ((s.put i c₁).put i c₂).clients[t]? = some u := by
      have ht : ((s.put i c₁).put i c₂).isNamed name t = true := by
        rw [WhisperRoom.isNamed_put hc₁ (hname.trans (hstate ▸ rfl)), hnamed]
        exact List.find?_some hfind
      obtain ⟨u, hu, -⟩ := Option.map_eq_some_iff.1 (beq_iff_eq.1 ht)
      exact ⟨u, hu⟩
    rw [heard_enabled_some _ hlookup, heard_deliver hc₂ hdeliver rfl hu, Option.elim_some]
    simp only [Sending.entry, hname]
    rfl

/-- What is put into an inbox last is the newest message there. -/
theorem newestStored_eq {e : InboxEntry} {k : Nat}
    (h : heard (whisperStep charSigned capacity) (WhisperRoom.inboxEvents k) s
      (dispatchSteps charSigned capacity s i line now later) = [.append e]) :
    newestStored charSigned capacity s (dispatchSteps charSigned capacity s i line now later) k =
      some (InboxEntry.stored (e, e.incoming)) := by
  obtain ⟨b, hb⟩ := WhisperRoom.exists_hasInbox s k
  obtain ⟨t, ht⟩ := exec_enabled (whisperStep charSigned capacity) s
    ((whisperCommand i line).toList ++ [.lookup i, .deliver i now, .copy i later])
  have hafter := exec_heard (WhisperRoom.HasInbox k) hasInbox_step hb ht
  rw [← dispatchSteps, h] at hafter
  rw [newestStored, dispatchSteps, ht, Option.bind_some]
  cases hk : t.clients[k]? with
  | none =>
    rw [WhisperRoom.HasInbox, hk] at hafter
    have hnone := congrArg Mailbox.newest hafter
    cases hnone
  | some d =>
    have hentries := ((WhisperRoom.HasInbox.of_some hk).1 hafter).entries
    rw [Option.bind_some, hentries]
    simp [Mailbox.apply, slide]

theorem whisperCommand_msg {rest : Bytes} (hline : line.bytes = lit "msg " ++ rest) (hne : rest ≠ [])
    (hhead : rest.head? ≠ some 0x20) (hlast : rest.getLast? ≠ some 0x20) :
    whisperCommand i line = some (.msg i rest) := by
  have hvalid : commandCatalogArgsValid .msg rest = true := by
    simp [commandCatalogArgsValid, CommandId.noArgs, CommandId.requiresArgs, skipSpaces_of_head hhead, hne]
  rw [whisperCommand, commandText_msg hline hne hlast, commandCatalogMatch_msg, skipSpaces_of_head hhead,
    Option.bind_some]
  simp only [hvalid, Bool.not_true, Bool.false_eq_true, if_false]

end

/-! ## Who is addressed -/

/-- A line for a client of the room is for that name alone, if and only if the name has no space in it. -/
theorem addressed_iff (charSigned : Bool) (capacity : Nat) {s : WhisperRoom} {i : Nat} {c : WhisperClient}
    (hi : s.idle i = some c) {j : Nat} (hj : j ∈ s.room) {name : CBuf MAX_USERNAME_LEN}
    (hname : s.isNamed name j = true) (haccepted : Accepted charSigned name) {text : Bytes} (htext : Trimmed text)
    {line : CBuf MAX_COMMAND_INPUT_LEN} (hline : line.bytes = lit "msg " ++ (name.bytes ++ 0x20 :: text))
    (now later : Int) :
    Addressed charSigned capacity s i name text (dispatchSteps charSigned capacity s i line now later) ↔
      0x20 ∉ name.bytes := by
  obtain ⟨hne, hhead⟩ := head_of_valid haccepted.valid
  obtain ⟨htne, hthead, htlast⟩ := htext
  have hcommand : whisperCommand i line = some (.msg i (name.bytes ++ 0x20 :: text)) := by
    refine whisperCommand_msg hline (by simp) ?_ ?_
    · rwa [List.head?_append_of_ne_nil _ hne]
    · rwa [List.getLast?_append_of_ne_nil _ (List.cons_ne_nil _ _), List.getLast?_cons_of_ne_nil htne]
  constructor
  · intro h hspace
    -- The first word of the name is taken for it, and whoever has the name gets a copy at most.
    obtain ⟨word, rest, hsplit, hword⟩ := List.eq_append_cons_of_mem hspace
    have hargs : msgArgs (name.bytes ++ 0x20 :: text) =
        some (CBuf.copy MAX_USERNAME_LEN word, skipSpaces (rest ++ 0x20 :: text)) := by
      rw [hsplit, List.append_assoc, List.cons_append]
      refine msgArgs_word ?_ hword ?_ (skipSpaces_ne_nil ⟨htne, hthead, htlast⟩ rest)
      · rintro rfl
        rw [hsplit] at hhead
        exact hhead rfl
      · have hfits := name.fits
        rw [hsplit, List.length_append] at hfits
        omega
    obtain ⟨k, -, hk, e, he, hincoming, -⟩ := h.reached
    have hother : ∀ t, s.isNamed (CBuf.copy MAX_USERNAME_LEN word) t = true → t ≠ k := by
      rintro t ht rfl
      have hnames : name = CBuf.copy MAX_USERNAME_LEN word :=
        Option.some.inj ((beq_iff_eq.1 hk).symm.trans (beq_iff_eq.1 ht))
      exact hword (CBuf.mem_of_mem_copy (hnames ▸ hspace))
    rw [putInto, heard_msg hi hcommand hargs] at he
    cases hfind : s.room.find? (s.isNamed (CBuf.copy MAX_USERNAME_LEN word)) with
    | none => simp [hfind, arrived] at he
    | some t =>
      rw [hfind, Option.elim_some, if_neg (hother t (List.find?_some hfind)), List.nil_append] at he
      split at he
      · obtain rfl := List.mem_singleton.1 he
        cases hincoming
      · simp [arrived] at he
  · intro hspace
    -- The name is the first word, so the lookup finds its first holder in the room.
    have hargs : msgArgs (name.bytes ++ 0x20 :: text) = some (name, text) := by
      have hrest : skipSpaces text = text := skipSpaces_of_head hthead
      rw [msgArgs_word hne hspace name.fits (hrest.symm ▸ htne), CBuf.copy_self, hrest]
    obtain ⟨t, hfind⟩ := Option.isSome_iff_exists.1 (List.find?_isSome.2 ⟨j, hj, hname⟩)
    have ht : s.isNamed name t = true := List.find?_some hfind
    obtain ⟨sent, hsent⟩ : ∃ e, e = Sending.entry ⟨.msg, name, text, .lookup⟩ c now false := ⟨_, rfl⟩
    obtain ⟨kept, hkept⟩ : ∃ e, e = Sending.entry ⟨.msg, name, text, .lookup⟩ c later true := ⟨_, rfl⟩
    have hheard : ∀ k, heard (whisperStep charSigned capacity) (WhisperRoom.inboxEvents k) s
        (dispatchSteps charSigned capacity s i line now later) =
          (if t = k then [.append sent] else []) ++ if t ≠ i ∧ i = k then [.append kept] else [] := by
      intro k
      rw [heard_msg hi hcommand hargs, hfind, Option.elim_some, hsent, hkept]
    have hfirst : heard (whisperStep charSigned capacity) (WhisperRoom.inboxEvents t) s
        (dispatchSteps charSigned capacity s i line now later) = [.append sent] := by
      rw [hheard, if_pos rfl, if_neg fun h => h.1 h.2.symm, List.append_nil]
    have hcontent : (CBuf.copy MAX_MESSAGE_LEN text).bytes = text := by
      have hsub : text ⊆ line.bytes := by
        rw [hline]
        exact fun b hb => by simp [hb]
      have hlen := line.fits
      rw [hline] at hlen
      simp only [List.length_append, List.length_cons] at hlen
      exact CBuf.copy_bytes (fun h0 => line.nul_free (hsub h0)) (by
        have : MAX_COMMAND_INPUT_LEN ≤ MAX_MESSAGE_LEN := by decide
        omega)
    constructor
    · refine ⟨t, List.mem_of_find?_eq_some hfind, ht, sent, ?_, hsent ▸ rfl, hsent ▸ hcontent, ?_⟩
      · rw [putInto, hfirst]
        exact List.mem_singleton_self sent
      · rw [newestStored_eq hfirst, hsent]
        rfl
    · intro k hk e he
      have hne : t ≠ k := by
        rintro rfl
        rw [ht] at hk
        cases hk
      rw [putInto, hheard, if_neg hne, List.nil_append] at he
      split at he
      · rename_i hself
        obtain rfl := List.mem_singleton.1 he
        exact ⟨hself.2.symm, hkept ▸ rfl⟩
      · cases he

/-- `ann` and another client have joined. -/
def annAnd (name : Bytes) : WhisperRoom :=
  ⟨[⟨CBuf.copy _ (lit "ann"), [], 0, CBuf.copy _ [], none, none⟩,
    ⟨CBuf.copy _ name, [], 0, CBuf.copy _ [], none, none⟩], [0, 1]⟩

theorem addressed_iff_bob :
    Addressed true 64 (annAnd (lit "bob")) 0 (CBuf.copy _ (lit "bob")) (lit "hi")
      (dispatchSteps true 64 (annAnd (lit "bob")) 0 (CBuf.copy _ (lit "msg bob hi")) 1752500000 1752500001) :=
  (addressed_iff true 64 rfl (show 1 ∈ (annAnd (lit "bob")).room by decide) (by decide)
    (.inl ⟨CBuf.copy _ (lit "bob"), by decide⟩) ⟨by decide, by decide, by decide⟩ (by decide) _ _).2 (by decide)

/-- `bob lee` may join under this name, and nobody can write to him. -/
theorem bobLee_unaddressed :
    exec (whisperStep true 64) .init [.join (CBuf.copy _ (lit "ann")), .join (CBuf.copy _ (lit "bob lee"))] =
        some (annAnd (lit "bob lee")) ∧
      ¬ Addressed true 64 (annAnd (lit "bob lee")) 0 (CBuf.copy _ (lit "bob lee")) (lit "hi")
        (dispatchSteps true 64 (annAnd (lit "bob lee")) 0 (CBuf.copy _ (lit "msg bob lee hi")) 1752500000
          1752500001) := by
  refine ⟨rfl, fun h => ?_⟩
  obtain ⟨j, hj, -, e, he, -⟩ := h.reached
  have hnone : ∀ k ∈ (annAnd (lit "bob lee")).room, putInto true 64 (annAnd (lit "bob lee"))
      (dispatchSteps true 64 (annAnd (lit "bob lee")) 0 (CBuf.copy _ (lit "msg bob lee hi")) 1752500000 1752500001) k =
        [] := by decide
  rw [hnone j hj] at he
  cases he

end Tnt
