import Tnt.Lib.Feeds
import Tnt.AnsiText
import Tnt.CommandLine
import Tnt.History
/-!
# Escape sequences from the keyboard (`input.c`)

Behind an escape `handle_key` reads on, in each mode as many bytes as the sequences of that mode need. Any other
sequence is read to its end only where it is as long as that (`csi_is_unit_iff`), and in INSERT and COMMAND mode it is
taken for the Escape key.

The channel is any `Feed` of bytes: what it gives at once is up to it. A read that gives nothing has timed out.
-/
open BaseLib

namespace Tnt

variable (S : Feed UInt8)

/-- `read_channel_exact`: what came before a read timed out. -/
def readChannelExact (len : Nat) (c : S.State) : Bytes × S.State := S.readExactly len c

/-! ## What the keys of a session change -/

/-- `client_mode_t` -/
inductive ClientMode
  | insert | normal | command
  deriving DecidableEq

/-- `tnt_command_output_kind_t` -/
inductive CommandOutputKind
  | none | inbox
  deriving DecidableEq

/-- The fields of a client that the Escape key reads and changes, and the input line. -/
structure KeyState where
  height : Nat
  mode : ClientMode
  view : HistoryView
  unreadMentions : Nat
  showHelp : Bool
  helpScrollPos : Int
  commandOutput : Bytes
  commandOutputScroll : Int
  commandOutputKind : CommandOutputKind
  showMotd : Bool
  /-- `command_input` and `command_history` -/
  command : Editor MAX_COMMAND_INPUT_LEN
  /-- `input` and `insert_history` -/
  editor : Editor MAX_MESSAGE_LEN

namespace KeyState

variable (visible : Nat) (s : KeyState)

/-- `normal_scroll_to_latest`, where `visible` messages are seen. -/
def scrollToLatest : KeyState := { s with view := historyViewScrollToLatest visible (historyViewHeight s.height) }

/-- `normal_scroll_by` -/
def scrollBy (delta : Int) : KeyState :=
  { s with view := historyViewScrollBy s.view visible (historyViewHeight s.height) delta }

/-- `dismiss_command_output` -/
def dismissCommandOutput : KeyState :=
  let closed := { s with
    commandOutput := [], commandOutputScroll := 0, commandOutputKind := .none, showMotd := false }
  if s.showMotd then
    scrollToLatest visible { closed with
      mode := .insert, view := { s.view with followTail := true }, unreadMentions := 0 }
  else { closed with mode := .normal }

end KeyState

/-! ## Pages and the history -/

/-- What scrolls a page or the history. -/
inductive ScrollKey
  | up | down | home | «end» | pageUp | pageDown
  deriving DecidableEq

/-- What is read behind `ESC [` for the pages and in NORMAL mode. -/
def readScrollKey (c : S.State) : Option ScrollKey × S.State :=
  match S.read 1 c with
  | ([x], c) =>
    if x = 0x41 then (some .up, c)
    else if x = 0x42 then (some .down, c)
    else if x = 0x48 then (some .home, c)
    else if x = 0x46 then (some .end, c)
    else if 0x31 ≤ x ∧ x ≤ 0x36 then
      match S.read 1 c with
      | ([y], c) =>
        if y = 0x7E then
          if x = 0x35 then (some .pageUp, c)
          else if x = 0x36 then (some .pageDown, c)
          else if x = 0x31 then (some .home, c)
          else if x = 0x34 then (some .end, c)
          else (none, c)
        else (none, c)
      | (_, c) => (none, c)
    else (none, c)
  | (_, c) => (none, c)

/-- `pager_action_t` -/
inductive PagerAction
  | none | scroll | close | refresh
  deriving DecidableEq

/-- `pager_page_height` -/
def pagerPageHeight (height : Nat) : Int := if height - 2 < 1 then 1 else (height - 2 : Nat)

/-- `pager_scroll_by` -/
def pagerScrollBy (scrollPos delta : Int) : Int := if scrollPos + delta < 0 then 0 else scrollPos + delta

def ScrollKey.pager (page scrollPos : Int) : ScrollKey → Int
  | up => pagerScrollBy scrollPos (-1)
  | down => pagerScrollBy scrollPos 1
  | home => 0
  | «end» => 999
  | pageUp => pagerScrollBy scrollPos (-page)
  | pageDown => pagerScrollBy scrollPos page

/-- `pager_apply_key`, for the Escape key. -/
def pagerEscape (page scrollPos : Int) (c : S.State) : PagerAction × Int × S.State :=
  match S.read 1 c with
  | ([b], c) =>
    if b ≠ 0x5B then (.none, scrollPos, c)
    else
      match readScrollKey S c with
      | (some key, c) => (.scroll, key.pager page scrollPos, c)
      | (none, c) => (.none, scrollPos, c)
  | (_, c) => (.close, scrollPos, c)

/-- `pager_apply_key` -/
def pagerApplyKey (height : Nat) (key : UInt8) (scrollPos : Int) (allowRefresh : Bool) (c : S.State) :
    PagerAction × Int × S.State :=
  let page := pagerPageHeight height
  let half := if page / 2 < 1 then 1 else page / 2
  let scroll (pos : Int) : PagerAction × Int × S.State := (.scroll, pos, c)
  if key = 0x71 then (.close, scrollPos, c)
  else if key = 0x6A then scroll (pagerScrollBy scrollPos 1)
  else if key = 0x6B then scroll (pagerScrollBy scrollPos (-1))
  else if key = 4 then scroll (pagerScrollBy scrollPos half)
  else if key = 21 then scroll (pagerScrollBy scrollPos (-half))
  else if key = 6 ∨ key = 0x20 then scroll (pagerScrollBy scrollPos page)
  else if key = 2 ∨ key = 0x62 then scroll (pagerScrollBy scrollPos (-page))
  else if key = 0x67 then scroll 0
  else if key = 0x47 then scroll 999
  else if (key = 0x72 ∨ key = 0x52) ∧ allowRefresh then (.refresh, scrollPos, c)
  else if key = esc then pagerEscape S page scrollPos c
  else (.none, scrollPos, c)

def ScrollKey.normal (visible : Nat) (s : KeyState) : ScrollKey → KeyState
  | up => s.scrollBy visible (-1)
  | down => s.scrollBy visible 1
  | home => { s with view := historyViewScrollToOldest }
  | «end» => s.scrollToLatest visible
  | pageUp => s.scrollBy visible (-(historyViewHeight s.height : Int))
  | pageDown => s.scrollBy visible (historyViewHeight s.height)

/-! ## A bracketed paste -/

/-- The drain loop, up to the end marker or a read that gives nothing, in at most so many rounds. -/
def pasteReads : Nat → S.State → List PasteRead × S.State
  | 0, c => ([], c)
  | rounds + 1, c =>
    match S.read 1 c with
    | ([b], c) =>
      if b = esc then
        let (tail, c) := readChannelExact S 5 c
        if tail = lit "[201~" then ([.escape tail], c)
        else
          let (reads, c) := pasteReads rounds c
          (.escape tail :: reads, c)
      else
        let (reads, c) := pasteReads rounds c
        (.byte b :: reads, c)
    | (_, c) => ([], c)

/-- Behind `ESC [ 2` in INSERT mode; every round of the loop reads something. -/
def insertPaste (s : KeyState) (c : S.State) : KeyState × S.State :=
  let (rest, c) := readChannelExact S 3 c
  if rest = lit "00~" then
    let (reads, c) := pasteReads S ((S.pending c).length + 1) c
    ({ s with editor := { s.editor with input := pasteLoop s.editor.input .reset reads } }, c)
  else (s, c)

/-! ## The Escape key -/

variable (visible : Nat) (s : KeyState)

/-- `handle_key` in INSERT mode, for the Escape key. -/
def insertEscape (c : S.State) : KeyState × S.State :=
  let leave : KeyState := KeyState.scrollToLatest visible { s with mode := .normal }
  match S.read 1 c with
  | ([b], c) =>
    if b = 0x5B then
      match S.read 1 c with
      | ([x], c) =>
        if x = 0x41 then ({ s with editor := s.editor.up }, c)
        else if x = 0x42 then ({ s with editor := s.editor.down }, c)
        else if x = 0x32 then insertPaste S s c
        else (leave, c)
      | (_, c) => (leave, c)
    else (leave, c)
  | (_, c) => (leave, c)

/-- `handle_key` in NORMAL mode, for the Escape key. -/
def normalEscape (c : S.State) : KeyState × S.State :=
  match S.read 1 c with
  | ([b], c) =>
    if b = 0x5B then
      match readScrollKey S c with
      | (some key, c) => (key.normal visible s, c)
      | (none, c) => (s, c)
    else (s, c)
  | (_, c) => (s, c)

/-- `handle_key` in COMMAND mode, for the Escape key. -/
def commandEscape (c : S.State) : KeyState × S.State :=
  let leave : KeyState := { s with mode := .normal, command := s.command.clear }
  match S.read 1 c with
  | ([b], c) =>
    if b = 0x5B then
      match S.read 1 c with
      | ([x], c) =>
        if x = 0x41 then ({ s with command := s.command.up }, c)
        else if x = 0x42 then ({ s with command := s.command.down }, c)
        else (leave, c)
      | (_, c) => (leave, c)
    else (leave, c)
  | (_, c) => (leave, c)

/-- `handle_key`, for the Escape key. -/
def handleEscape (c : S.State) : KeyState × S.State :=
  if s.showHelp then
    let (action, pos, c) := pagerApplyKey S s.height esc s.helpScrollPos false c
    let s := { s with helpScrollPos := pos }
    (if action = .close then { s with showHelp := false } else s, c)
  else if s.commandOutput ≠ [] then
    if s.showMotd then (s.dismissCommandOutput visible, c)
    else
      -- The Escape key does not refresh.
      let (action, pos, c) := pagerApplyKey S s.height esc s.commandOutputScroll true c
      let s := { s with commandOutputScroll := pos }
      (if action = .close then s.dismissCommandOutput visible else s, c)
  else
    match s.mode with
    | .insert => insertEscape S visible s c
    | .normal => normalEscape S visible s c
    | .command => commandEscape S s c

/-! ## Control sequences -/

/-- A control sequence of ECMA-48 behind its `ESC [`: parameter bytes, intermediate bytes and a final byte. -/
def IsCsi (body : Bytes) : Prop :=
  ∃ params inters final, body = params ++ inters ++ [final] ∧ (∀ b ∈ params, 0x30 ≤ b ∧ b ≤ 0x3F) ∧
    (∀ b ∈ inters, 0x20 ≤ b ∧ b ≤ 0x2F) ∧ isCsiFinal final = true

/-- Where the keys of a session go. -/
inductive KeyContext
  | insert | normal | command
  /-- The help, or the output of a command. -/
  | pager
  deriving DecidableEq

/-- The message of the day is closed by any key. -/
def KeyState.context (s : KeyState) : Option KeyContext :=
  if s.showHelp then some .pager
  else if s.commandOutput ≠ [] then if s.showMotd then none else some .pager
  else
    match s.mode with
    | .insert => some .insert
    | .normal => some .normal
    | .command => some .command

def scrollSequences : List Bytes :=
  [lit "A", lit "B", lit "H", lit "F", lit "1~", lit "4~", lit "5~", lit "6~"]

/-- The sequences that are keys there. -/
def Recognised : KeyContext → Bytes → Prop
  | .insert, body | .command, body => body ∈ [lit "A", lit "B"]
  | .normal, body | .pager, body => body ∈ scrollSequences

/-- What is asked of the sequence `body` in front of `rest`, where `left` is not read: nothing of it is left and nothing
else is read, and where it is no key neither the mode nor any text has changed. -/
structure TakenAsUnit (ctx : KeyContext) (body rest left : Bytes) (s s' : KeyState) : Prop where
  consumed : left = rest
  unrecognised : ¬ Recognised ctx body → s'.mode = s.mode ∧ s'.showHelp = s.showHelp ∧
    s'.commandOutput = s.commandOutput ∧ s'.command = s.command ∧ s'.editor = s.editor

/-- The sequence is as long as what the mode reads, and no sign of the Escape key to it. -/
def FitsReader : KeyContext → Bytes → Bytes → Prop
  | .insert, body, rest =>
    body ∈ [lit "A", lit "B"] ∨
      byteAt body 0 = 0x32 ∧ (body.length = 4 ∨ body.length < 4 ∧ rest = [])
  | .command, body, _ => body ∈ [lit "A", lit "B"]
  | .normal, body, _ | .pager, body, _ =>
    body.length = 1 ∨ body.length = 2 ∧ 0x31 ≤ byteAt body 0 ∧ byteAt body 0 ≤ 0x36

/-- What the readers tell apart: bytes below the final ones, and a final one. -/
def CsiBytes (body : Bytes) : Prop :=
  ∃ front final, body = front ++ [final] ∧ (∀ b ∈ front, b < 0x40) ∧ isCsiFinal final = true

theorem IsCsi.bytes {body : Bytes} (h : IsCsi body) : CsiBytes body := by
  obtain ⟨params, inters, final, rfl, hparams, hinters, hfinal⟩ := h
  refine ⟨params ++ inters, final, rfl, fun b hb => ?_, hfinal⟩
  rcases List.mem_append.1 hb with hb | hb
  · exact UInt8.lt_of_le_of_lt (hparams b hb).2 (by decide)
  · exact UInt8.lt_of_le_of_lt (hinters b hb).2 (by decide)

theorem CsiBytes.cases {body : Bytes} (h : CsiBytes body) :
    (∃ f, body = [f] ∧ isCsiFinal f = true) ∨ ∃ x t, body = x :: t ∧ x < 0x40 ∧ CsiBytes t := by
  obtain ⟨front, final, rfl, hfront, hfinal⟩ := h
  cases front with
  | nil => exact .inl ⟨final, rfl, hfinal⟩
  | cons x front =>
    exact .inr ⟨x, front ++ [final], rfl, hfront x List.mem_cons_self, front, final, rfl,
      fun b hb => hfront b (List.mem_cons_of_mem _ hb), hfinal⟩

theorem CsiBytes.ne_nil {body : Bytes} (h : CsiBytes body) : body ≠ [] := by
  obtain ⟨front, final, rfl, -, -⟩ := h
  exact List.append_ne_nil_of_right_ne_nil _ (List.cons_ne_nil _ _)

theorem isCsiFinal_iff (f : UInt8) : isCsiFinal f = true ↔ 0x40 ≤ f ∧ f ≤ 0x7E := by
  rw [isCsiFinal, Bool.and_eq_true, decide_eq_true_eq, decide_eq_true_eq]

/-- A final byte behind bytes that are none ends the sequence. -/
theorem CsiBytes.eq_of_final {x : UInt8} {t : Bytes} (h : CsiBytes (x :: t)) (hx : 0x40 ≤ x) : t = [] := by
  rcases h.cases with ⟨f, hf, -⟩ | ⟨y, t', heq, hy, -⟩
  · exact (List.cons.inj hf).2
  · obtain ⟨rfl, rfl⟩ := List.cons.inj heq
    exact absurd hx (UInt8.not_le.2 hy)

theorem arrow_of_mem {x : UInt8} {t : Bytes} (h : x :: t ∈ [lit "A", lit "B"]) : x = 0x41 ∨ x = 0x42 := by
  rcases List.mem_cons.1 h with h | h
  · exact .inl (List.cons.inj h).1
  · exact .inr (List.cons.inj (List.mem_singleton.1 h)).1

variable {S} {visible} {s}

theorem not_letter {x : UInt8} (hx : x < 0x40) : x ≠ 0x41 ∧ x ≠ 0x42 ∧ x ≠ 0x48 ∧ x ≠ 0x46 := by
  refine ⟨?_, ?_, ?_, ?_⟩ <;> rintro rfl <;> exact absurd hx (by decide)

/-- A sequence of one byte is read, and so is one of a digit and another byte. -/
theorem pending_readScrollKey {c : S.State} {body rest : Bytes} (hbody : CsiBytes body)
    (hc : S.pending c = body ++ rest) : S.pending (readScrollKey S c).2 = rest ↔
      body.length = 1 ∨ body.length = 2 ∧ 0x31 ≤ byteAt body 0 ∧ byteAt body 0 ≤ 0x36 := by
  rcases hbody.cases with ⟨f, rfl, hf⟩ | ⟨x, t, rfl, hx, ht⟩
  · obtain ⟨c', hread, hleft⟩ := S.read_one hc
    have hdigit : ¬ (0x31 ≤ f ∧ f ≤ 0x36) := fun h =>
      absurd (UInt8.le_trans ((isCsiFinal_iff f).1 hf).1 h.2) (by decide)
    have hend : (readScrollKey S c).2 = c' := by
      simp only [readScrollKey, hread, if_neg hdigit]
      split_ifs <;> rfl
    simp [hend, hleft]
  · obtain ⟨c', hread, hleft⟩ := S.read_one hc
    obtain ⟨y, t, rfl⟩ := List.exists_cons_of_ne_nil ht.ne_nil
    obtain ⟨hA, hB, hH, hF⟩ := not_letter hx
    have hbyte : byteAt (x :: y :: t) 0 = x := rfl
    rw [hbyte]
    by_cases hdigit : 0x31 ≤ x ∧ x ≤ 0x36
    · obtain ⟨c'', hread', hleft'⟩ := S.read_one hleft
      have hend : (readScrollKey S c).2 = c'' := by
        simp only [readScrollKey, hread, hread', if_neg hA, if_neg hB, if_neg hH, if_neg hF, if_pos hdigit]
        split_ifs <;> rfl
      rw [hend, hleft']
      simp [hdigit]
    · have hend : (readScrollKey S c).2 = c' := by
        simp only [readScrollKey, hread, if_neg hA, if_neg hB, if_neg hH, if_neg hF, if_neg hdigit]
      have hlonger : y :: t ++ rest ≠ rest := fun heq => by
        have hlen := congrArg List.length heq
        rw [List.length_append, List.length_cons] at hlen
        omega
      rw [hend, hleft]
      exact iff_of_false hlonger (by simp [hdigit])

/-- Only the sequences of the table scroll. -/
theorem readScrollKey_eq_none {c : S.State} {body rest : Bytes} (hbody : CsiBytes body)
    (hc : S.pending c = body ++ rest) (hno : body ∉ scrollSequences) : (readScrollKey S c).1 = none := by
  rcases hbody.cases with ⟨f, rfl, hf⟩ | ⟨x, t, rfl, hx, ht⟩
  · obtain ⟨c', hread, -⟩ := S.read_one hc
    have hdigit : ¬ (0x31 ≤ f ∧ f ≤ 0x36) := fun h =>
      absurd (UInt8.le_trans ((isCsiFinal_iff f).1 hf).1 h.2) (by decide)
    simp only [readScrollKey, hread, if_neg hdigit]
    split_ifs with hA hB hH hF
    · exact absurd (by rw [hA]; decide) hno
    · exact absurd (by rw [hB]; decide) hno
    · exact absurd (by rw [hH]; decide) hno
    · exact absurd (by rw [hF]; decide) hno
    · rfl
  · obtain ⟨c', hread, hleft⟩ := S.read_one hc
    obtain ⟨y, t, rfl⟩ := List.exists_cons_of_ne_nil ht.ne_nil
    obtain ⟨c'', hread', -⟩ := S.read_one hleft
    obtain ⟨hA, hB, hH, hF⟩ := not_letter hx
    simp only [readScrollKey, hread, hread', if_neg hA, if_neg hB, if_neg hH, if_neg hF]
    by_cases hy : y = 0x7E
    · obtain rfl := ht.eq_of_final (by rw [hy]; decide)
      rw [if_pos hy]
      split_ifs with hdigit h5 h6 h1 h4
      · exact absurd (by rw [hy, h5]; decide) hno
      · exact absurd (by rw [hy, h6]; decide) hno
      · exact absurd (by rw [hy, h1]; decide) hno
      · exact absurd (by rw [hy, h4]; decide) hno
      · rfl
      · rfl
    · rw [if_neg hy]
      split_ifs <;> rfl

theorem pagerEscape_eq {c c' : S.State} (h : S.read 1 c = ([0x5B], c')) (page scrollPos : Int) :
    pagerEscape S page scrollPos c =
      match readScrollKey S c' with
      | (some key, c) => (.scroll, key.pager page scrollPos, c)
      | (none, c) => (.none, scrollPos, c) := by
  simp only [pagerEscape, h, ne_eq, not_true_eq_false, if_false]

theorem pagerApplyKey_esc (height : Nat) (scrollPos : Int) (allowRefresh : Bool) (c : S.State) :
    pagerApplyKey S height esc scrollPos allowRefresh c = pagerEscape S (pagerPageHeight height) scrollPos c := rfl

/-- Only a paste starts as one. -/
theorem CsiBytes.eq_paste {t rest : Bytes} (h : CsiBytes t) (htake : (t ++ rest).take 3 = lit "00~") :
    t = lit "00~" := by
  have hlow {x : UInt8} {t : Bytes} (h : CsiBytes (x :: t)) (hx : x < 0x40) : CsiBytes t := by
    rcases h.cases with ⟨f, hf, hfinal⟩ | ⟨y, t', heq, -, ht⟩
    · rw [← (List.cons.inj hf).1] at hfinal
      exact absurd ((isCsiFinal_iff x).1 hfinal).1 (UInt8.not_le.2 hx)
    · rwa [(List.cons.inj heq).2]
  have hlit : lit "00~" = [0x30, 0x30, 0x7E] := by decide
  rw [hlit] at htake ⊢
  match t, h with
  | [], h => exact absurd rfl h.ne_nil
  | a :: t, h =>
    rw [List.cons_append, List.take_succ_cons, List.cons.injEq] at htake
    obtain ⟨rfl, htake⟩ := htake
    match t, hlow h (by decide) with
    | [], h => exact absurd rfl h.ne_nil
    | b :: t, h =>
      rw [List.cons_append, List.take_succ_cons, List.cons.injEq] at htake
      obtain ⟨rfl, htake⟩ := htake
      match t, hlow h (by decide) with
      | [], h => exact absurd rfl h.ne_nil
      | d :: t, h =>
        rw [List.cons_append, List.take_succ_cons, List.cons.injEq] at htake
        obtain ⟨rfl, -⟩ := htake
        rw [h.eq_of_final (by decide)]

/-- Three bytes are read behind a `2`. -/
theorem insertPaste_csi {c : S.State} {t rest : Bytes} (ht : CsiBytes t) (hpaste : t ≠ lit "00~")
    (hc : S.pending c = t ++ rest) :
    (S.pending (insertPaste S s c).2 = rest ↔ t.length = 3 ∨ t.length < 3 ∧ rest = []) ∧ (insertPaste S s c).1 = s := by
  obtain ⟨c', hread, hleft⟩ := S.readExactly_eq 3 c
  rw [hc] at hread hleft
  have hno : (t ++ rest).take 3 ≠ lit "00~" := fun h => hpaste (ht.eq_paste h)
  rw [insertPaste, readChannelExact, hread]
  dsimp only
  rw [if_neg hno]
  refine ⟨?_, rfl⟩
  rw [hleft]
  constructor
  · intro h
    have hlen := congrArg List.length h
    rw [List.length_drop, List.length_append] at hlen
    rcases Nat.lt_trichotomy t.length 3 with hlt | heq | hgt
    · exact .inr ⟨hlt, List.length_eq_zero_iff.1 (by omega)⟩
    · exact .inl heq
    · omega
  · rintro (h | ⟨h, rfl⟩)
    · exact List.drop_left' h
    · rw [List.append_nil]
      exact List.drop_of_length_le (Nat.le_of_lt h)

/-- Where no page covers the mode. -/
theorem context_mode {ctx : KeyContext} (h : s.context = some ctx) (hpager : ctx ≠ .pager) :
    s.showHelp = false ∧ s.commandOutput = [] ∧ (match s.mode with
      | .insert => ctx = .insert
      | .normal => ctx = .normal
      | .command => ctx = .command) := by
  unfold KeyState.context at h
  split at h
  · exact absurd (Option.some.inj h).symm hpager
  rename_i hhelp
  split at h
  · split at h
    · cases h
    · exact absurd (Option.some.inj h).symm hpager
  rename_i houtput
  refine ⟨Bool.eq_false_iff.2 hhelp, not_not.1 houtput, ?_⟩
  cases hmode : s.mode <;> rw [hmode] at h <;> exact (Option.some.inj h).symm

theorem handleEscape_insert (h : s.context = some .insert) (c : S.State) :
    s.mode = .insert ∧ handleEscape S visible s c = insertEscape S visible s c := by
  obtain ⟨hhelp, houtput, hmode⟩ := context_mode h (by decide)
  have hinsert : s.mode = .insert := by
    cases hm : s.mode <;> rw [hm] at hmode <;> first | rfl | cases hmode
  refine ⟨hinsert, ?_⟩
  unfold handleEscape
  rw [if_neg (by rw [hhelp]; decide), if_neg (not_not.2 houtput)]
  simp only [hinsert]

section Csi
variable {c : S.State} {body rest : Bytes} (hbody : CsiBytes body) (hc : S.pending c = 0x5B :: (body ++ rest))
include hbody hc

/-- In a pager. -/
theorem pagerEscape_csi (page scrollPos : Int) :
    (S.pending (pagerEscape S page scrollPos c).2.2 = rest ↔ FitsReader .pager body rest) ∧
      (pagerEscape S page scrollPos c).1 ≠ .close := by
  obtain ⟨c', hread, hleft⟩ := S.read_one hc
  have hpending := pending_readScrollKey hbody hleft
  rw [pagerEscape_eq hread]
  generalize readScrollKey S c' = r at hpending
  obtain ⟨key, c''⟩ := r
  cases key <;> exact ⟨hpending, by simp⟩

theorem handleEscape_pager (hctx : s.context = some .pager) :
    TakenAsUnit .pager body rest (S.pending (handleEscape S visible s c).2) s (handleEscape S visible s c).1 ↔
      FitsReader .pager body rest := by
  unfold KeyState.context at hctx
  unfold handleEscape
  split at hctx
  · rename_i hhelp
    obtain ⟨hpending, hopen⟩ := pagerEscape_csi hbody hc (pagerPageHeight s.height) s.helpScrollPos
    rw [if_pos hhelp, pagerApplyKey_esc]
    dsimp only
    rw [if_neg hopen, ← hpending]
    exact ⟨fun h => h.consumed, fun h => ⟨h, fun _ => ⟨rfl, rfl, rfl, rfl, rfl⟩⟩⟩
  rename_i hhelp
  split at hctx
  · rename_i houtput
    split at hctx
    · cases hctx
    rename_i hmotd
    obtain ⟨hpending, hopen⟩ := pagerEscape_csi hbody hc (pagerPageHeight s.height) s.commandOutputScroll
    rw [if_neg hhelp, if_pos houtput, if_neg hmotd, pagerApplyKey_esc]
    dsimp only
    rw [if_neg hopen, ← hpending]
    exact ⟨fun h => h.consumed, fun h => ⟨h, fun _ => ⟨rfl, rfl, rfl, rfl, rfl⟩⟩⟩
  · split at hctx <;> cases hctx

theorem normalEscape_csi :
    TakenAsUnit .normal body rest (S.pending (normalEscape S visible s c).2) s (normalEscape S visible s c).1 ↔
      FitsReader .normal body rest := by
  obtain ⟨c', hread, hleft⟩ := S.read_one hc
  have hpending := pending_readScrollKey hbody hleft
  simp only [normalEscape, hread, if_true]
  generalize readScrollKey S c' = r at hpending
  obtain ⟨key, c''⟩ := r
  cases key with
  | none => exact ⟨fun h => hpending.1 h.consumed, fun h => ⟨hpending.2 h, fun _ => ⟨rfl, rfl, rfl, rfl, rfl⟩⟩⟩
  | some key =>
    refine ⟨fun h => hpending.1 h.consumed, fun h => ⟨hpending.2 h, fun _ => ?_⟩⟩
    cases key <;> exact ⟨rfl, rfl, rfl, rfl, rfl⟩

/-- COMMAND mode is left for every sequence but the two arrows. -/
theorem commandEscape_csi (hmode : s.mode = .command) :
    TakenAsUnit .command body rest (S.pending (commandEscape S s c).2) s (commandEscape S s c).1 ↔
      FitsReader .command body rest := by
  obtain ⟨c', hread, hleft⟩ := S.read_one hc
  obtain ⟨x, t, rfl⟩ := List.exists_cons_of_ne_nil hbody.ne_nil
  obtain ⟨c'', hread', hleft'⟩ := S.read_one hleft
  simp only [commandEscape, hread, hread', if_true]
  have harrow {a : UInt8} (hx : x = a) (ha : 0x40 ≤ a) : t = [] := hbody.eq_of_final (hx ▸ ha)
  split_ifs with hA hB
  · obtain rfl := harrow hA (by decide)
    rw [hA]
    exact ⟨fun _ => List.mem_cons_self, fun h => ⟨hleft', fun hno => absurd h hno⟩⟩
  · obtain rfl := harrow hB (by decide)
    rw [hB]
    exact ⟨fun _ => List.mem_cons_of_mem _ List.mem_cons_self, fun h => ⟨hleft', fun hno => absurd h hno⟩⟩
  · have hno : ¬ FitsReader .command (x :: t) rest := by
      intro h
      exact (arrow_of_mem h).elim hA hB
    refine iff_of_false (fun h => ?_) hno
    have hleave := (h.unrecognised hno).1
    rw [hmode] at hleave
    cases hleave

/-- INSERT mode is left for every sequence but the two arrows and those that start like a paste. -/
theorem insertEscape_csi (hmode : s.mode = .insert) (hpaste : body ≠ lit "200~") :
    TakenAsUnit .insert body rest (S.pending (insertEscape S visible s c).2) s (insertEscape S visible s c).1 ↔
      FitsReader .insert body rest := by
  obtain ⟨c', hread, hleft⟩ := S.read_one hc
  obtain ⟨x, t, rfl⟩ := List.exists_cons_of_ne_nil hbody.ne_nil
  obtain ⟨c'', hread', hleft'⟩ := S.read_one hleft
  simp only [insertEscape, hread, hread', if_true]
  have harrow {a : UInt8} (hx : x = a) (ha : 0x40 ≤ a) : t = [] := hbody.eq_of_final (hx ▸ ha)
  split_ifs with hA hB h2
  · obtain rfl := harrow hA (by decide)
    rw [hA]
    exact ⟨fun _ => .inl List.mem_cons_self, fun h => ⟨hleft', fun hno => absurd List.mem_cons_self hno⟩⟩
  · obtain rfl := harrow hB (by decide)
    rw [hB]
    exact ⟨fun _ => .inl (List.mem_cons_of_mem _ List.mem_cons_self),
      fun h => ⟨hleft', fun hno => absurd (List.mem_cons_of_mem _ List.mem_cons_self) hno⟩⟩
  · subst h2
    have ht : CsiBytes t := by
      rcases hbody.cases with ⟨f, hf, hfinal⟩ | ⟨y, t', heq, -, ht⟩
      · rw [← (List.cons.inj hf).1] at hfinal
        exact absurd hfinal (by decide)
      · rwa [(List.cons.inj heq).2]
    obtain ⟨hpending, hsame⟩ := insertPaste_csi ht (fun h => hpaste (congrArg (List.cons 0x32) h)) hleft'
    have hlength : (0x32 :: t).length = 4 ∨ (0x32 :: t).length < 4 ∧ rest = [] ↔
        t.length = 3 ∨ t.length < 3 ∧ rest = [] := by
      change t.length + 1 = 3 + 1 ∨ t.length + 1 < 3 + 1 ∧ rest = [] ↔ _
      rw [Nat.add_right_cancel_iff, Nat.add_lt_add_iff_right]
    have hno : ¬ 0x32 :: t ∈ [lit "A", lit "B"] := fun h => by
      rcases arrow_of_mem h with h | h <;> exact absurd h (by decide)
    rw [hsame]
    constructor
    · intro h
      exact .inr ⟨rfl, hlength.2 (hpending.1 h.consumed)⟩
    · rintro (h | ⟨-, h⟩)
      · exact absurd h hno
      · exact ⟨hpending.2 (hlength.1 h), fun _ => ⟨rfl, rfl, rfl, rfl, rfl⟩⟩
  · have hno : ¬ FitsReader .insert (x :: t) rest := by
      rintro (h | ⟨h, -⟩)
      · exact (arrow_of_mem h).elim hA hB
      · exact h2 h
    refine iff_of_false (fun h => ?_) hno
    have hleave := (h.unrecognised fun h => hno (.inl h)).1
    rw [KeyState.scrollToLatest, hmode] at hleave
    cases hleave

end Csi

/-- A control sequence is taken as a unit exactly where it is as long as what the mode reads, and where INSERT and
COMMAND mode know it. -/
theorem csi_is_unit_iff (S : Feed UInt8) (visible : Nat) (s : KeyState) (ctx : KeyContext) (hctx : s.context = some ctx)
    (body : Bytes) (hbody : IsCsi body) (hpaste : body ≠ lit "200~") (rest : Bytes) (c : S.State)
    (hc : S.pending c = 0x5B :: (body ++ rest)) :
    TakenAsUnit ctx body rest (S.pending (handleEscape S visible s c).2) s (handleEscape S visible s c).1 ↔
      FitsReader ctx body rest := by
  have hbytes := hbody.bytes
  by_cases hpager : ctx = .pager
  · subst hpager
    exact handleEscape_pager hbytes hc hctx
  obtain ⟨hhelp, houtput, hmode⟩ := context_mode hctx hpager
  unfold handleEscape
  rw [if_neg (by rw [hhelp]; decide), if_neg (not_not.2 houtput)]
  cases hm : s.mode with
  | insert =>
    rw [hm] at hmode
    obtain rfl := hmode
    exact insertEscape_csi hbytes hc hm hpaste
  | normal =>
    rw [hm] at hmode
    obtain rfl := hmode
    exact normalEscape_csi hbytes hc
  | command =>
    rw [hm] at hmode
    obtain rfl := hmode
    exact commandEscape_csi hbytes hc hm

/-- A session that has typed nothing yet. -/
def freshKeys (mode : ClientMode) : KeyState :=
  ⟨24, mode, ⟨0, true⟩, 0, false, 0, [], 0, .none, false, .init, .init⟩

theorem csi_is_unit_iff_delete : TakenAsUnit .normal (lit "3~") (lit "j")
    (((handleEscape (Feed.packets UInt8) 9 (freshKeys .normal) [lit "[3", lit "~j"]).2).flatten) (freshKeys .normal)
    (handleEscape (Feed.packets UInt8) 9 (freshKeys .normal) [lit "[3", lit "~j"]).1 :=
  (csi_is_unit_iff (Feed.packets UInt8) 9 (freshKeys .normal) .normal (by decide) (lit "3~")
    ⟨lit "3", [], 0x7E, by decide, fun b hb => by rw [List.mem_singleton.1 hb]; decide, by simp, by decide⟩
    (by decide) (lit "j") [lit "[3", lit "~j"] (by decide)).2 (by unfold FitsReader; decide)

/-- The Right key leaves INSERT mode, and an arrow with a modifier leaves its end in NORMAL mode, where `A` is a key. -/
theorem sequences_are_split :
    (¬ TakenAsUnit .insert (lit "C") []
      (((handleEscape (Feed.packets UInt8) 9 (freshKeys .insert) [lit "[C"]).2).flatten)
      (freshKeys .insert) (handleEscape (Feed.packets UInt8) 9 (freshKeys .insert) [lit "[C"]).1) ∧
    ¬ TakenAsUnit .normal (lit "1;5A") []
      (((handleEscape (Feed.packets UInt8) 9 (freshKeys .normal) [lit "[1;5A"]).2).flatten)
      (freshKeys .normal) (handleEscape (Feed.packets UInt8) 9 (freshKeys .normal) [lit "[1;5A"]).1 := by
  constructor
  · intro h
    exact absurd (h.unrecognised (by unfold Recognised; decide)).1 (by decide)
  · intro h
    exact absurd h.consumed (by decide)

end Tnt
