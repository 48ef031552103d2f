import Tnt.Authorship
import Tnt.InsertMode
import Tnt.Utf8Cuts
/-!
# The names of authors (`common.c`, `input.c`, `commands.c`, `exec.c`)

A name comes from the prompt, from `:nick` or from the login of the SSH session, and
`is_valid_username` filters all three. Where `char` is signed it refuses every byte that is not
ASCII (`isValidUsername_documented_iff`). Where it is not, the last two cut a name behind its 63rd
byte, which may lie inside of a character.
-/
open BaseLib

namespace Tnt

/-! ## The filter -/

/-- What `common.h` says of a valid name: no shell metacharacters, no control characters but the tab, and no leading
space, dot or dash. -/
structure DocumentedName (username : Bytes) : Prop where
  first : byteAt username 0 ≠ 0x20 ∧ byteAt username 0 ≠ 0x2E ∧ byteAt username 0 ≠ 0x2D
  controls : ∀ b ∈ username, b < 0x20 → b = 0x09
  metacharacters : ∀ b ∈ username, b ∉ illegalChars

section Filter
variable {username : Bytes}

/-- The filter in the words of the header, for the two signs of `char`. -/
theorem isValidUsername_iff (charSigned : Bool) (hne : username ≠ []) : isValidUsername charSigned username = true ↔
    DocumentedName username ∧ (charSigned = true → ∀ b ∈ username, b < 0x80) := by
  have hbyte : ∀ b : UInt8, (!(charValue charSigned b < 32 && charValue charSigned b != 9)) = true ↔
      (b < 0x20 → b = 0x09) ∧ (charSigned = true → b < 0x80) := by
    cases charSigned <;> exact forall_byte (by decide +kernel)
  unfold isValidUsername
  rw [if_neg hne]
  split
  · rename_i hfirst
    refine ⟨fun h => absurd h Bool.false_ne_true, fun h => ?_⟩
    obtain ⟨hspace, hdot, hdash⟩ := h.1.first
    simp only [hspace, hdot, hdash] at hfirst
    cases hfirst
  · rename_i hfirst
    simp only [List.all_eq_true, Bool.and_eq_true, hbyte, Bool.not_eq_true', List.contains_eq_mem,
      decide_eq_false_iff_not]
    constructor
    · intro h
      refine ⟨⟨?_, fun b hb => (h b hb).1.1, fun b hb => (h b hb).2⟩, fun hs b hb => (h b hb).1.2 hs⟩
      simpa [not_or, and_assoc] using hfirst
    · rintro ⟨h, hascii⟩ b hb
      exact ⟨⟨h.controls b hb, fun hs => hascii hs b hb⟩, h.metacharacters b hb⟩

/-- With a signed `char` the filter does what the header says for ASCII names, and for those that it says are
not valid. -/
theorem isValidUsername_documented_iff (username : Bytes) (hne : username ≠ []) :
    (isValidUsername true username = true ↔ DocumentedName username) ↔
      (∀ b ∈ username, b < 0x80) ∨ ¬ DocumentedName username := by
  rw [isValidUsername_iff true hne]
  tauto

theorem isValidUsername_documented_iff_ann :
    (isValidUsername true (lit "ann") = true ↔ DocumentedName (lit "ann")) :=
  (isValidUsername_documented_iff (lit "ann") (by decide)).2 (.inl (by decide +kernel))

/-- The header says that this name is valid. -/
theorem accents_refused : ¬ ∀ username, username ≠ [] → 0 ∉ username →
    (isValidUsername true username = true ↔ DocumentedName username) := by
  intro h
  have haccent := (h (lit "é") (by decide) (by decide)).2 ⟨by decide, by decide +kernel, by decide +kernel⟩
  exact absurd haccent (by decide)

end Filter

/-! ## The three ways to a name -/

/-- `read_username`, for what its reads give: each gives a byte, with what could be read behind one that starts a longer
sequence. There is no name where the session ends before Enter. -/
def readUsername (charSigned : Bool) :
    CBuf MAX_USERNAME_LEN → List (UInt8 × Bytes) → Option (CBuf MAX_USERNAME_LEN)
  | _, [] => none
  | username, (b, rest) :: keys =>
    if b = 0x0D ∨ b = newline then some (chooseUsername charSigned username)
    else if b = 3 ∨ b = 4 then none
    else readUsername charSigned (promptByte username b rest) keys

/-- A line of COMMAND mode, and the names of the other clients in the room when it is carried out. -/
structure EnteredCommand where
  line : CBuf MAX_COMMAND_INPUT_LEN
  others : List (CBuf MAX_USERNAME_LEN)

/-- `commands_dispatch`, as far as it concerns the name of the client. -/
def nickCommand (charSigned : Bool) (username : CBuf MAX_USERNAME_LEN) (c : EnteredCommand) :
    CBuf MAX_USERNAME_LEN :=
  match commandCatalogMatch (commandText c.line) with
  | some (.nick, arg) =>
    match validatedName charSigned arg with
    | .error _ => username
    | .ok name => if name ≠ username ∧ name ∈ c.others then username else name
  | _ => username

/-- What is asked of the name of an author. -/
structure WholeName (name : CBuf MAX_USERNAME_LEN) : Prop where
  nonempty : name.bytes ≠ []
  valid : utf8IsValidString name.bytes = true
  short : name.bytes.length ≤ 63 ∧ utf8Strlen name.bytes ≤ 20
  replayed : ∀ (m : Message) (now : Int), m.username = name → m.content.bytes ≠ [] →
    utf8IsValidString m.content.bytes = true → ClockTime m.timestamp → InWindow now m.timestamp →
    ∃ line, messageLogFormatRecord (safeMsg m) (MAX_USERNAME_LEN + MAX_MESSAGE_LEN + 48) = some line ∧
      messageLogParseRecord line now = some (safeMsg m)
  encoded : ∀ (m : Message) (messageId : Bytes) (bufSize : Nat), m.username = name → messageId ≠ [] →
    utf8IsValidString m.content.bytes = true → (messageCreatedLine messageId m).length + 1 < bufSize →
    (appendMessageCreated bufSize [] messageId m).2 = true

/-- The pieces of a string up to a column are characters. -/
def WholeUpTo (s : Bytes) (maxWidth : Nat) : Prop :=
  ∀ k, columns ((utf8Chars s).take k) ≤ maxWidth → ∀ c ∈ (utf8Chars s).take k, IsChar c

/-- What passes the filter is text behind 63 bytes, or is cut again behind 20 columns, which are text. -/
def CutWhole (charSigned : Bool) (name : Bytes) : Prop :=
  isValidUsername charSigned name = true →
    utf8IsValidString (name.take (MAX_USERNAME_LEN - 1)) = true ∨
      20 < utf8Strlen (name.take (MAX_USERNAME_LEN - 1)) ∧ WholeUpTo (name.take (MAX_USERNAME_LEN - 1)) 20

section Names
variable {charSigned : Bool} {name username : CBuf MAX_USERNAME_LEN}

/-- The rest of it follows from these. -/
theorem wholeName_iff : WholeName name ↔
    name.bytes ≠ [] ∧ utf8IsValidString name.bytes = true ∧ utf8Strlen name.bytes ≤ 20 := by
  constructor
  · intro h
    exact ⟨h.nonempty, h.valid, h.short.2⟩
  · rintro ⟨hne, hvalid, hshort⟩
    refine ⟨hne, hvalid, ⟨Nat.le_of_lt_succ name.fits, hshort⟩, ?_, ?_⟩
    · rintro m now rfl hcne hcvalid hclock hwindow
      have hyear := hclock.fourDigitYear
      have hts : m.timestamp ≠ -1 := by
        have := hclock.1
        omega
      exact ⟨_, formatRecord_safeMsg hyear, parse_recordText (m := safeMsg m) hyear
        (replayable_safeMsg.2 ⟨hne, hcne, hvalid, hcvalid, hts, hwindow⟩)⟩
    · rintro m messageId bufSize rfl hid hcvalid hroom
      exact (appendMessageCreated_ok (by omega) hid).2 ⟨⟨hvalid, hcvalid⟩, by omega⟩

/-- The columns that `utf8_truncate` keeps are text where the pieces up to there are characters. -/
theorem utf8Truncate_valid_iff (s : Bytes) (maxWidth : Nat) :
    utf8IsValidString (utf8Truncate s maxWidth) = true ↔ WholeUpTo s maxWidth := by
  constructor
  · intro h k hk c hc
    have hkept := take_isPrefix_utf8TruncateLoop maxWidth 0 k (utf8Chars s) (by rwa [Nat.zero_add])
    rw [← utf8Chars_utf8Truncate] at hkept
    exact isChar_of_mem_utf8Chars h (hkept.subset hc)
  · intro h
    have hkept := List.prefix_iff_eq_take.1 (isPrefix_utf8TruncateLoop maxWidth 0 (utf8Chars s))
    have hfits := columns_utf8TruncateLoop_le maxWidth 0 (utf8Chars s) (Nat.zero_le _)
    rw [Nat.zero_add, hkept] at hfits
    rw [utf8Truncate, hkept, valid_iff]
    exact ⟨_, rfl, h _ hfits⟩

/-- The end of all three ways: a name of more than 20 characters is cut behind 20 columns. -/
theorem wholeName_cut_iff {buffer : CBuf MAX_USERNAME_LEN} (hne : buffer.bytes ≠ []) :
    WholeName (if utf8Strlen buffer.bytes > 20 then CBuf.copy MAX_USERNAME_LEN (utf8Truncate buffer.bytes 20)
      else buffer) ↔
    utf8IsValidString buffer.bytes = true ∨ 20 < utf8Strlen buffer.bytes ∧ WholeUpTo buffer.bytes 20 := by
  rw [wholeName_iff]
  split
  · rename_i hlong
    rw [bytes_truncatedName, ← utf8Truncate_valid_iff]
    have hcut : utf8IsValidString buffer.bytes = true → utf8IsValidString (utf8Truncate buffer.bytes 20) = true :=
      (isCut_utf8Truncate buffer.bytes 20).valid
    have hcne := utf8Truncate_ne_nil hne (show 2 ≤ 20 by decide)
    have hshort := utf8Strlen_utf8Truncate_le buffer.bytes 20
    tauto
  · rename_i hlong
    have hshort : utf8Strlen buffer.bytes ≤ 20 := Nat.not_lt.1 hlong
    tauto

/-! ## The prompt -/

theorem wholeName_anonymous : WholeName anonymous := wholeName_iff.2 (by decide)

/-- The prompt takes whole characters. -/
theorem promptByte_valid (h : utf8IsValidString username.bytes = true) (b : UInt8) (rest : Bytes) :
    utf8IsValidString (promptByte username b rest).bytes = true := by
  have hfits := username.fits
  have hkeep {s : Bytes} (hs : utf8IsValidString s = true) (hlen : s.length ≤ username.bytes.length) :
      utf8IsValidString (CBuf.copy MAX_USERNAME_LEN s).bytes = true := by
    rw [copy_bytes_of_valid hs (by omega)]
    exact hs
  have happend {c : Bytes} (hc : IsChar c) (hlen : username.bytes.length + c.length < MAX_USERNAME_LEN) :
      utf8IsValidString (CBuf.copy MAX_USERNAME_LEN (username.bytes ++ c)).bytes = true := by
    have hboth : utf8IsValidString (username.bytes ++ c) = true := by
      rw [valid_append h]
      exact valid_of_isChar hc
    rw [copy_bytes_of_valid hboth (by rwa [List.length_append])]
    exact hboth
  unfold promptByte
  split
  · exact hkeep valid_nil (Nat.zero_le _)
  split
  · exact hkeep (valid_removeLastWord h) (Editor.length_removeLastWord_le _)
  split
  · exact hkeep (valid_removeLastChar h) (Editor.length_removeLastChar_le _)
  rename_i hdel
  split
  · exact h
  rename_i hctl
  split
  · rename_i hascii
    split
    · refine happend ((isChar_single b).2 ⟨?_, UInt8.lt_iff_toNat_lt.1 hascii⟩) ?_
      · rintro rfl
        exact hctl (by decide)
      · rw [List.length_singleton]
        omega
    · exact h
  dsimp only
  split
  · exact h
  rename_i hlen
  split
  · exact h
  rename_i hseq
  split
  · have hchar : (b :: rest).length = utf8ByteLength b := by
      have := (utf8ByteLength_pos b).1
      rw [List.length_cons]
      omega
    rw [Bool.not_eq_true', Bool.not_eq_false, ← hchar] at hseq
    exact happend hseq (by omega)
  · exact h

/-- A name from the prompt is whole, whatever is typed. -/
theorem readUsername_whole {keys : List (UInt8 × Bytes)} {typed : CBuf MAX_USERNAME_LEN}
    (htyped : utf8IsValidString typed.bytes = true) (h : readUsername charSigned typed keys = some name) :
    WholeName name := by
  induction keys generalizing typed with
  | nil => cases h
  | cons key keys ih =>
    obtain ⟨b, rest⟩ := key
    simp only [readUsername] at h
    split_ifs at h
    · obtain rfl := Option.some.inj h
      unfold chooseUsername
      split
      · exact wholeName_anonymous
      rename_i hne
      split
      · exact wholeName_anonymous
      · exact (wholeName_cut_iff hne).2 (.inl htyped)
    · exact ih (promptByte_valid htyped b rest) h

/-! ## `:nick` -/

/-- A name that passes the filter is cut, and whole where the cuts are. -/
theorem validatedName_whole_iff {arg : Bytes} (h : validatedName charSigned arg = .ok name) :
    WholeName name ↔ CutWhole charSigned (skipSpaces arg) := by
  obtain ⟨hvalid, -, -⟩ := validatedName_ok h
  have hne := username_ne_nil hvalid
  have hnul := validUsername_zero hvalid
  have hcopy : (CBuf.copy MAX_USERNAME_LEN (arg.dropWhile (· == 0x20))).bytes =
      (skipSpaces arg).take (MAX_USERNAME_LEN - 1) := CBuf.copy_bytes_take hnul
  have hcne : (CBuf.copy MAX_USERNAME_LEN (arg.dropWhile (· == 0x20))).bytes ≠ [] := by
    rw [hcopy, ne_eq, List.take_eq_nil_iff, not_or]
    exact ⟨by decide, hne⟩
  have hname : name = if utf8Strlen (CBuf.copy MAX_USERNAME_LEN (arg.dropWhile (· == 0x20))).bytes > 20 then
      CBuf.copy MAX_USERNAME_LEN (utf8Truncate (CBuf.copy MAX_USERNAME_LEN (arg.dropWhile (· == 0x20))).bytes 20)
      else CBuf.copy MAX_USERNAME_LEN (arg.dropWhile (· == 0x20)) := by
    simp only [validatedName, if_neg hne, hvalid, Bool.not_true, Bool.false_eq_true, if_false] at h
    split_ifs at h ⊢ <;> exact (Except.ok.inj h).symm
  rw [hname, wholeName_cut_iff hcne, hcopy, CutWhole]
  exact ⟨fun hw _ => hw, fun hw => hw hvalid⟩

/-- The argument of a `:nick` passes the filter and both cuts whole. -/
def NickWhole (charSigned : Bool) (line : CBuf MAX_COMMAND_INPUT_LEN) : Prop :=
  ∀ arg, commandCatalogMatch (commandText line) = some (.nick, arg) → CutWhole charSigned (skipSpaces arg)

/-- A command keeps the name, or puts in place the one it was given. -/
theorem nickCommand_cases (charSigned : Bool) (username : CBuf MAX_USERNAME_LEN) (c : EnteredCommand) :
    nickCommand charSigned username c = username ∨
      ∃ arg name, commandCatalogMatch (commandText c.line) = some (.nick, arg) ∧
        validatedName charSigned arg = .ok name ∧ nickCommand charSigned username c = name := by
  unfold nickCommand
  split
  · rename_i arg hmatch
    split
    · exact .inl rfl
    · rename_i name hname
      split
      · exact .inl rfl
      · exact .inr ⟨arg, name, hmatch, hname, rfl⟩
  · exact .inl rfl

theorem nickCommand_whole (h : WholeName username) {c : EnteredCommand} (hc : NickWhole charSigned c.line) :
    WholeName (nickCommand charSigned username c) := by
  rcases nickCommand_cases charSigned username c with heq | ⟨arg, name, hmatch, hname, heq⟩
  · rw [heq]
    exact h
  · rw [heq]
    exact (validatedName_whole_iff hname).2 (hc arg hmatch)

/-- Names stay whole over any commands that cut none. -/
theorem foldl_nickCommand_whole (h : WholeName username) {commands : List EnteredCommand}
    (hc : ∀ c ∈ commands, NickWhole charSigned c.line) :
    WholeName (commands.foldl (nickCommand charSigned) username) := by
  induction commands generalizing username with
  | nil => exact h
  | cons c commands ih =>
    rw [List.foldl_cons]
    exact ih (nickCommand_whole h (hc c List.mem_cons_self)) fun d hd => hc d (List.mem_cons_of_mem c hd)

/-- Alone in the room, a client gets the name of its command. -/
theorem nickWhole_of_whole {line : CBuf MAX_COMMAND_INPUT_LEN}
    (h : WholeName (nickCommand charSigned username ⟨line, []⟩)) : NickWhole charSigned line := by
  intro arg hmatch hvalid
  obtain ⟨name, hname⟩ : ∃ name, validatedName charSigned arg = .ok name := by
    have hne : arg.dropWhile (· == 0x20) ≠ [] := username_ne_nil hvalid
    have hv : isValidUsername charSigned (arg.dropWhile (· == 0x20)) = true := hvalid
    simp only [validatedName, if_neg hne, hv, Bool.not_true, Bool.false_eq_true, if_false]
    split <;> exact ⟨_, rfl⟩
  simp only [nickCommand, hmatch, hname, List.not_mem_nil, and_false, if_false] at h
  exact (validatedName_whole_iff hname).1 h hvalid

/-! ## The login -/

theorem resolveExecUsername_whole_iff (charSigned : Bool) (sshLogin : CBuf MAX_USERNAME_LEN) :
    WholeName (resolveExecUsername charSigned sshLogin) ↔ CutWhole charSigned sshLogin.bytes := by
  have hfull : sshLogin.bytes.take (MAX_USERNAME_LEN - 1) = sshLogin.bytes :=
    List.take_of_length_le (Nat.le_sub_one_of_lt sshLogin.fits)
  unfold resolveExecUsername CutWhole
  rw [hfull]
  by_cases hvalid : isValidUsername charSigned sshLogin.bytes = true
  · have hne := username_ne_nil hvalid
    have hbuffer : (if sshLogin.bytes ≠ [] ∧ isValidUsername charSigned sshLogin.bytes = true then sshLogin
        else CBuf.copy MAX_USERNAME_LEN (lit "anonymous")) = sshLogin := if_pos ⟨hne, hvalid⟩
    rw [hbuffer, wholeName_cut_iff hne]
    exact ⟨fun h _ => h, fun h => h hvalid⟩
  · have hbuffer : (if sshLogin.bytes ≠ [] ∧ isValidUsername charSigned sshLogin.bytes = true then sshLogin
        else CBuf.copy MAX_USERNAME_LEN (lit "anonymous")) = anonymous := if_neg fun h => hvalid h.2
    rw [hbuffer]
    exact ⟨fun _ h => absurd h hvalid, fun _ => wholeName_anonymous⟩

end Names

/-- All names of an author are whole if and only if neither the name of a `:nick` nor the login is cut inside of a
character that stays. -/
theorem authorNames_whole_iff (charSigned : Bool) (keys : List (UInt8 × Bytes)) (username : CBuf MAX_USERNAME_LEN)
    (hread : readUsername charSigned (CBuf.copy MAX_USERNAME_LEN []) keys = some username)
    (lines : List (CBuf MAX_COMMAND_INPUT_LEN)) (login : Bytes) :
    ((∀ commands : List EnteredCommand, commands.map (·.line) <+: lines →
          WholeName (commands.foldl (nickCommand charSigned) username)) ∧
        WholeName (resolveExecUsername charSigned (CBuf.copy MAX_USERNAME_LEN login))) ↔
      (∀ line ∈ lines, NickWhole charSigned line) ∧ CutWhole charSigned (CBuf.copy MAX_USERNAME_LEN login).bytes := by
  rw [resolveExecUsername_whole_iff]
  apply and_congr_left
  intro _
  constructor
  · intro h line hline
    -- The line and those in front of it, with nobody else in the room.
    obtain ⟨front, behind, rfl⟩ := List.append_of_mem hline
    have hfront : ((front ++ [line]).map fun line => (⟨line, []⟩ : EnteredCommand)).map (·.line) = front ++ [line] := by
      rw [List.map_map]
      exact List.map_id _
    have hwhole := h ((front ++ [line]).map fun line => ⟨line, []⟩) (by rw [hfront]; exact ⟨behind, by simp⟩)
    rw [List.map_append, List.foldl_append] at hwhole
    exact nickWhole_of_whole hwhole
  · intro h commands hlines
    refine foldl_nickCommand_whole (readUsername_whole ?_ hread) fun c hc => ?_
    · exact valid_nil
    · exact h _ (hlines.subset (List.mem_map_of_mem hc))

theorem authorNames_whole_iff_ann :
    WholeName (nickCommand false (CBuf.copy MAX_USERNAME_LEN (lit "ann")) ⟨CBuf.copy _ (lit "nick bób"), []⟩) := by
  have hmatch : commandCatalogMatch (commandText (CBuf.copy _ (lit "nick bób"))) = some (.nick, lit "bób") := by
    decide
  have hiff := authorNames_whole_iff false [(0x61, []), (0x6E, []), (0x6E, []), (0x0D, [])]
    (CBuf.copy MAX_USERNAME_LEN (lit "ann")) (by decide) [CBuf.copy _ (lit "nick bób")] (lit "ann")
  refine (hiff.2 ⟨fun line hline arg harg _ => ?_, fun _ => ?_⟩).1 [⟨_, []⟩] List.prefix_rfl
  · rw [List.mem_singleton.1 hline, hmatch] at harg
    cases harg
    exact .inl (by decide)
  · exact .inl (by decide)

/-- Sixteen characters of four bytes each. -/
def sixteenFaces : Bytes := (List.replicate 16 (lit "😀")).flatten

/-- Three bytes of the last one are kept, where `char` is unsigned. -/
theorem faces_cut : ¬ ∀ (charSigned : Bool) (keys : List (UInt8 × Bytes)) (username : CBuf MAX_USERNAME_LEN),
    readUsername charSigned (CBuf.copy MAX_USERNAME_LEN []) keys = some username →
    ∀ lines : List (CBuf MAX_COMMAND_INPUT_LEN), (∀ line ∈ lines, utf8IsValidString line.bytes = true) →
    ∀ login : Bytes, (∀ commands : List EnteredCommand, commands.map (·.line) <+: lines →
        WholeName (commands.foldl (nickCommand charSigned) username)) ∧
      WholeName (resolveExecUsername charSigned (CBuf.copy MAX_USERNAME_LEN login)) := by
  intro h
  have hnick := h false [(0x0D, [])] anonymous (by decide) [CBuf.copy _ (lit "nick " ++ sixteenFaces)]
    (fun line hline => by rw [List.mem_singleton.1 hline]; decide +kernel) []
  have hvalid := (hnick.1 [⟨_, []⟩] List.prefix_rfl).valid
  exact absurd hvalid (by decide +kernel)

/-- Where `char` is signed, a name that passes the filter is ASCII, and every cut of it is text. -/
theorem cutWhole_signed (name : Bytes) : CutWhole true name := by
  intro hvalid
  have hdocumented := (isValidUsername_iff true (username_ne_nil hvalid)).1 hvalid
  have hnul := validUsername_zero hvalid
  refine .inl (valid_of_ascii fun b hb => ?_)
  have hmem := List.mem_of_mem_take hb
  exact ⟨ne_of_mem_of_not_mem hmem hnul, UInt8.lt_iff_toNat_lt.1 (hdocumented.2 rfl b hmem)⟩

end Tnt
