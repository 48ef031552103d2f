import Tnt.JsonStrings
import Tnt.Names
import Tnt.Room
/-!
# The `users` command (`exec.c`)

`users` copies the names out of the room and writes them into a buffer whose size
it computes from their number: as lines, or as an array of JSON. No name needs
more than twice its length in JSON, so that the buffer is large enough.
-/
open BaseLib BaseLib.Json

namespace Tnt

/-- The loop of `exec_command_users` over the names from `i` on, for JSON. -/
def usersJsonLoop (outputSize : Nat) : Nat → List Bytes → Bytes → Bytes
  | _, [], output => output
  | i, username :: usernames, output =>
    let output := if i > 0 then bufferAppend outputSize output (lit ",") else output
    usersJsonLoop outputSize (i + 1) usernames (jsonAppendString outputSize output username)

/-- `exec_command_users`: what it sends, with memory for its copies. The username of a client is looked up by its
address. -/
def execCommandUsers (room : RoomArrays) (username : Nat → CBuf MAX_USERNAME_LEN) (json : Bool) : Bytes :=
  let count := room.clientCount
  let usernames := (room.clients.take count).map fun client => (CBuf.copy MAX_USERNAME_LEN (username client).bytes).bytes
  let outputSize := if json then count * (MAX_USERNAME_LEN * 2 + 8) + 8 else count * (MAX_USERNAME_LEN + 1) + 1
  let outputSize := if outputSize < 8 then 8 else outputSize
  if json then
    bufferAppend outputSize (usersJsonLoop outputSize 0 usernames (bufferAppend outputSize [] (lit "["))) (lit "]\n")
  else usernames.foldl (fun output username => bufferAppend outputSize output (username ++ [newline])) []

/-! ## The array -/

/-- What is written for the names from `i` on. -/
theorem usersJsonLoop_take (outputSize i : Nat) (usernames : List Bytes) (buffer : Bytes) :
    usersJsonLoop outputSize i usernames (buffer.take (outputSize - 1)) =
      (buffer ++ if i = 0 then commas (usernames.map jsonString)
        else (usernames.map jsonString).flatMap (0x2C :: ·)).take (outputSize - 1) := by
  induction usernames generalizing i buffer with
  | nil => simp [usersJsonLoop, commas]
  | cons username usernames ih =>
    have hrest := ih (i + 1)
    rw [usersJsonLoop]
    cases i with
    | zero =>
      simp only [Nat.lt_irrefl, gt_iff_lt, if_false, if_true, if_neg (Nat.succ_ne_zero _)] at hrest ⊢
      rw [jsonAppendString_take, hrest, List.map_cons, commas, List.append_assoc]
    | succ i =>
      simp only [if_neg (Nat.succ_ne_zero _), gt_iff_lt, Nat.succ_pos, if_true] at hrest ⊢
      rw [bufferAppend_take, jsonAppendString_take, hrest, List.map_cons, List.flatMap_cons, List.append_assoc,
        List.append_assoc]
      rfl

/-- The text of the array, without the newline behind it. -/
def usersArray (usernames : List Bytes) : Value :=
  .array noBlanks (usernames.map fun username => ⟨noBlanks, .string (encode username), noBlanks⟩)

theorem usersArray_render (usernames : List Bytes) :
    (usersArray usernames).render = 0x5B :: commas (usernames.map jsonString) ++ [0x5D] := by
  have helements : renderElements (usernames.map fun username => ⟨noBlanks, .string (encode username), noBlanks⟩) =
      usernames.map jsonString := by
    induction usernames with
    | nil => rfl
    | cons username usernames ih =>
      rw [List.map_cons, renderElements, ih, List.map_cons, Element.render, Value.render, quoted_encode]
      simp [noBlanks]
  rw [usersArray, Value.render, helements]
  simp [noBlanks]

theorem length_jsonString_le {text : Bytes} (h : ∀ c ∈ text, 0x20 ≤ c ∨ c = 0x09) :
    (jsonString text).length ≤ 2 * text.length + 2 := by
  have hescape : (text.flatMap jsonEscape).length ≤ 2 * text.length := by
    induction text with
    | nil => exact Nat.le_refl _
    | cons c text ih =>
      obtain ⟨hc, htext⟩ := List.forall_mem_cons.1 h
      have := length_jsonEscape_text c hc
      have := ih htext
      rw [List.flatMap_cons, List.length_append, List.length_cons]
      omega
  simp only [jsonString, List.length_append, List.length_cons, List.length_nil]
  omega

theorem length_flatten_le_mul {k : Nat} {parts : List Bytes} (h : ∀ part ∈ parts, part.length ≤ k) :
    parts.flatten.length ≤ parts.length * k := by
  induction parts with
  | nil => exact Nat.zero_le _
  | cons part parts ih =>
    obtain ⟨hpart, hparts⟩ := List.forall_mem_cons.1 h
    have := ih hparts
    rw [List.flatten_cons, List.length_append, List.length_cons, Nat.succ_mul]
    omega

theorem length_commas_le {k : Nat} {parts : List Bytes} (h : ∀ part ∈ parts, part.length ≤ k) :
    (commas parts).length ≤ parts.length * (k + 1) := by
  have hmarked : ∀ part ∈ parts.map (0x2C :: ·), part.length ≤ k + 1 :=
    List.forall_mem_map.2 fun part hpart => Nat.succ_le_succ (h part hpart)
  have hle := length_flatten_le_mul hmarked
  rw [List.length_map, ← List.flatMap_def] at hle
  refine Nat.le_trans ?_ hle
  cases parts with
  | nil => exact Nat.zero_le _
  | cons part parts => exact Nat.le_succ _

/-! ## UTF-8 -/

theorem jsonEscape_ascii (c : UInt8) : c.toNat < 0x80 → ∀ b ∈ jsonEscape c, b ≠ 0 ∧ b.toNat < 0x80 := by
  revert c
  exact forall_byte (by decide +kernel)

theorem jsonEscape_high (c : UInt8) : 0x80 ≤ c.toNat → jsonEscape c = [c] := by
  revert c
  exact forall_byte (by decide +kernel)

theorem valid_concat {a b : Bytes} (ha : utf8IsValidString a = true) (hb : utf8IsValidString b = true) :
    utf8IsValidString (a ++ b) = true := (valid_append ha b).trans hb

theorem valid_flatMap {α : Type*} {f : α → Bytes} {xs : List α} (h : ∀ x ∈ xs, utf8IsValidString (f x) = true) :
    utf8IsValidString (xs.flatMap f) = true := by
  induction xs with
  | nil => rfl
  | cons x xs ih =>
    obtain ⟨hx, hxs⟩ := List.forall_mem_cons.1 h
    exact valid_concat hx (ih hxs)

/-- The writer leaves the characters beyond ASCII as they are. -/
theorem valid_jsonString {text : Bytes} (h : utf8IsValidString text = true) :
    utf8IsValidString (jsonString text) = true := by
  have hchar (c : Bytes) (hc : IsChar c) : utf8IsValidString (c.flatMap jsonEscape) = true := by
    rcases hc.cases with ⟨b, rfl, -, hb⟩ | ⟨-, hhigh⟩
    · rw [List.flatMap_singleton]
      exact valid_of_ascii (jsonEscape_ascii b hb)
    · have hself : c.flatMap jsonEscape = c.flatMap fun b => [b] :=
        List.flatMap_congr fun b hb => jsonEscape_high b (hhigh b hb)
      rw [hself, List.flatMap_singleton']
      exact valid_of_isChar hc
  obtain ⟨cs, rfl, hcs⟩ := (valid_iff text).1 h
  rw [jsonString, ← List.flatMap_id, List.flatMap_assoc]
  have hquote : utf8IsValidString [0x22] = true := by decide
  exact valid_concat (valid_concat hquote (valid_flatMap fun c hc => hchar c (hcs c hc))) hquote

theorem valid_usersArray {usernames : List Bytes} (h : ∀ username ∈ usernames, utf8IsValidString username = true) :
    utf8IsValidString (usersArray usernames).render = true := by
  have hcommas : utf8IsValidString (commas (usernames.map jsonString)) = true := by
    cases usernames with
    | nil => rfl
    | cons username usernames =>
      obtain ⟨hfirst, hrest⟩ := List.forall_mem_cons.1 h
      rw [List.map_cons, commas, List.flatMap_map]
      refine valid_concat (valid_jsonString hfirst) (valid_flatMap fun username hu => ?_)
      exact valid_concat (a := [0x2C]) (by decide) (valid_jsonString (hrest username hu))
  rw [usersArray_render]
  exact valid_concat (valid_concat (a := [0x5B]) (by decide) hcommas) (by decide)

/-! ## Both answers -/

/-- No name is cut. -/
theorem execCommandUsers_eq {charSigned : Bool} {room : RoomArrays} {username : Nat → CBuf MAX_USERNAME_LEN}
    {usernames : List Bytes} (hcount : usernames.length = room.clientCount)
    (hnames : (room.clients.take room.clientCount).map (username · |>.bytes) = usernames)
    (hvalid : ∀ name ∈ usernames, isValidUsername charSigned name = true ∧ name.length < MAX_USERNAME_LEN) :
    execCommandUsers room username true = (usersArray usernames).render ++ [newline] ∧
      execCommandUsers room username false = (usernames.map (· ++ [newline])).flatten := by
  have hcopies : (room.clients.take room.clientCount).map
      (fun client => (CBuf.copy MAX_USERNAME_LEN (username client).bytes).bytes) = usernames := by
    rw [← hnames]
    exact List.map_congr_left fun client _ => CBuf.copy_bytes (username client).nul_free (username client).fits
  have hjson : (commas (usernames.map jsonString)).length ≤ room.clientCount * 129 := by
    have hparts : ∀ part ∈ usernames.map jsonString, part.length ≤ 128 := by
      refine List.forall_mem_map.2 fun name hname => ?_
      obtain ⟨hv, hlen⟩ := hvalid name hname
      have := length_jsonString_le fun c hc => validUsername_ge hv c hc
      have : MAX_USERNAME_LEN = 64 := rfl
      omega
    have := length_commas_le hparts
    rwa [List.length_map, hcount] at this
  have hlines : (usernames.map (· ++ [newline])).flatten.length ≤ room.clientCount * 64 := by
    have hline : ∀ line ∈ usernames.map (· ++ [newline]), line.length ≤ 64 := by
      refine List.forall_mem_map.2 fun name hname => ?_
      rw [List.length_append, List.length_singleton]
      exact (hvalid name hname).2
    have := length_flatten_le_mul hline
    rwa [List.length_map, hcount] at this
  constructor
  · obtain ⟨size, hsize⟩ : ∃ size, size = room.clientCount * (MAX_USERNAME_LEN * 2 + 8) + 8 := ⟨_, rfl⟩
    have hsize' : size = room.clientCount * 136 + 8 := hsize
    have hroom : (([] ++ lit "[") ++ commas (usernames.map jsonString) ++ lit "]\n").length ≤ size - 1 := by
      have hbracket : (lit "[").length = 1 := rfl
      have hend : (lit "]\n").length = 2 := rfl
      rw [List.length_append, List.length_append, List.nil_append, hbracket, hend]
      omega
    have hopen : bufferAppend size [] (lit "[") = ([] ++ lit "[").take (size - 1) := rfl
    have hloop := usersJsonLoop_take size 0 usernames ([] ++ lit "[")
    rw [if_pos rfl] at hloop
    simp only [execCommandUsers, if_true, hcopies, ← hsize]
    rw [if_neg (by omega), hopen, hloop, bufferAppend_take, List.take_of_length_le hroom, usersArray_render]
    have hbrackets : lit "[" = [0x5B] ∧ lit "]\n" = [0x5D, newline] := ⟨rfl, rfl⟩
    simp [hbrackets]
  · obtain ⟨size, hsize⟩ : ∃ size, size = if room.clientCount * (MAX_USERNAME_LEN + 1) + 1 < 8 then 8
        else room.clientCount * (MAX_USERNAME_LEN + 1) + 1 := ⟨_, rfl⟩
    have hroom : room.clientCount * 64 ≤ size - 1 := by
      have : MAX_USERNAME_LEN + 1 = 65 := rfl
      rw [this] at hsize
      split at hsize <;> omega
    have hfits := hlines.trans hroom
    have hfold := foldl_bufferAppend_take size [] (usernames.map (· ++ [newline]))
    rw [List.take_nil, List.nil_append, List.foldl_map, List.take_of_length_le hfits] at hfold
    simp only [execCommandUsers, Bool.false_eq_true, if_false, hcopies, ← hsize]
    exact hfold

theorem fileLines_users {charSigned : Bool} {usernames : List Bytes}
    (h : ∀ name ∈ usernames, isValidUsername charSigned name = true) :
    fileLines (usernames.map (· ++ [newline])).flatten = usernames.map (· ++ [newline]) := by
  induction usernames with
  | nil => rfl
  | cons name usernames ih =>
    obtain ⟨hname, hrest⟩ := List.forall_mem_cons.1 h
    have hnl : newline ∉ name := fun hmem => by
      rcases validUsername_ge hname newline hmem with h | h <;> exact absurd h (by decide)
    rw [List.map_cons, List.flatten_cons, List.append_assoc, List.singleton_append, fileLines, lines_line hnl,
      ← fileLines, ih hrest]

/-- The answers of `users`: in JSON an array of strings that decode to the names of those in the room, in the order of
joining, and without JSON a line for each of them. -/
theorem usersCommand_faithful (charSigned : Bool) (env : Environment) (dir : LogDir) (now : Int) (cs : List RoomCall)
    (username : Nat → CBuf MAX_USERNAME_LEN) :
    let capacity := (configEnvInt env TNT_CONFIG_MAX_CONNECTIONS).toNat
    let room := cs.foldl RoomArrays.call (.create env dir now)
    let log := cs.foldl (RoomLog.call capacity) ⟨[], messageLoad dir MAX_MESSAGES now, 0⟩
    (∀ client ∈ log.clients, isValidUsername charSigned (username client).bytes = true) →
      (∃ blanks elements, execCommandUsers room username true = (Value.array blanks elements).render ++ [newline] ∧
        List.Forall₂ (fun element client => ∃ string, element.value = .string string ∧
          decode string = some (username client).bytes) elements log.clients) ∧
      ((∀ client ∈ log.clients, utf8IsValidString (username client).bytes = true) →
        utf8IsValidString (execCommandUsers room username true) = true) ∧
      fileLines (execCommandUsers room username false) = log.clients.map fun client =>
        (username client).bytes ++ [newline] := by
  intro capacity room log hvalid
  obtain ⟨hclients, -, -, -, -, hcount, -⟩ := room_refines env dir now cs
  obtain ⟨names, hnames⟩ : ∃ names, names = log.clients.map fun client => (username client).bytes := ⟨_, rfl⟩
  have hlength : names.length = room.clientCount := by
    rw [hnames, List.length_map]
    exact hcount.symm
  have heach : ∀ name ∈ names, isValidUsername charSigned name = true ∧ name.length < MAX_USERNAME_LEN := by
    rw [hnames]
    exact List.forall_mem_map.2 fun client hclient => ⟨hvalid client hclient, (username client).fits⟩
  have hroom : (room.clients.take room.clientCount).map (fun client => (username client).bytes) = names := by
    rw [hclients, hnames]
  obtain ⟨hjson, htext⟩ := execCommandUsers_eq hlength hroom heach
  refine ⟨⟨_, _, hjson, ?_⟩, fun hutf8 => ?_, ?_⟩
  · rw [hnames, List.map_map, List.forall₂_map_left_iff, List.forall₂_same]
    exact fun client _ => ⟨_, rfl, decode_encode _⟩
  · rw [hjson]
    refine valid_concat (valid_usersArray ?_) (by decide)
    rw [hnames]
    exact List.forall_mem_map.2 hutf8
  · rw [htext, fileLines_users fun name hname => (heach name hname).1, hnames, List.map_map]
    rfl

/-- Bob joined, and ann after him. -/
theorem usersCommand_faithful_ann :
    let room := [RoomCall.add 1, .add 2].foldl RoomArrays.call (.create (fun _ => none) ⟨none, none⟩ 0)
    let username := fun client => CBuf.copy MAX_USERNAME_LEN (if client = 2 then lit "ann" else lit "bob")
    (∃ blanks elements, execCommandUsers room username true = (Value.array blanks elements).render ++ [newline] ∧
      List.Forall₂ (fun element client => ∃ string, element.value = .string string ∧
        decode string = some (username client).bytes) elements [1, 2]) ∧
    fileLines (execCommandUsers room username false) = [lit "bob\n", lit "ann\n"] := by
  intro room username
  have hvalid : ∀ client ∈ [1, 2], isValidUsername true (username client).bytes = true := by decide
  obtain ⟨hjson, -, htext⟩ :=
    usersCommand_faithful true (fun _ => none) ⟨none, none⟩ 0 [.add 1, .add 2] username hvalid
  exact ⟨hjson, htext⟩

end Tnt
