import Tnt.Input
/-!
# The command line (`command_catalog.c`, `commands.c`, `input.c`)

What COMMAND mode edits, and how a line is taken apart into a command of the
catalog and its argument.
-/
open BaseLib

namespace Tnt

def MAX_COMMAND_INPUT_LEN : Nat := 256

instance : NeZero MAX_COMMAND_INPUT_LEN := ⟨by decide⟩

/-- `tnt_command_id_t` -/
inductive CommandId
  | users | msg | reply | inbox | nick | last | search | muteJoins | theme | help | lang | clear | quit
  deriving DecidableEq

/-- The commands of the catalog with their names, the canonical one first. -/
def commandCatalog : List (CommandId × List Bytes) :=
  [(.users, [lit "users", lit "list", lit "who"]), (.msg, [lit "msg", lit "w"]), (.reply, [lit "reply", lit "r"]),
   (.inbox, [lit "inbox"]), (.nick, [lit "nick", lit "name"]), (.last, [lit "last"]), (.search, [lit "search"]),
   (.muteJoins, [lit "mute-joins", lit "mute"]), (.theme, [lit "theme", lit "color"]), (.help, [lit "help"]),
   (.lang, [lit "lang", lit "language"]), (.clear, [lit "clear", lit "cls"]),
   (.quit, [lit "q", lit "quit", lit "exit"])]

/-- The names of the themes. -/
def themeNames : List Bytes :=
  [lit "cyan", lit "green", lit "magenta", lit "blue", lit "amber", lit "red", lit "mono"]

/-! ## Taking a line apart -/

def skipSpaces (value : Bytes) : Bytes := value.dropWhile (· == 0x20)

/-- `name_matches`: the argument behind the name. -/
def nameMatches (line name : Bytes) : Option Bytes :=
  if name.isPrefixOf line then
    let rest := line.drop name.length
    if byteAt rest 0 ≠ 0 ∧ byteAt rest 0 ≠ 0x20 then none else some (skipSpaces rest)
  else none

/-- `command_catalog_match` -/
def commandCatalogMatch (line : Bytes) : Option (CommandId × Bytes) :=
  let line := skipSpaces line
  if line = [] then none
  else commandCatalog.findSome? fun (id, names) => names.findSome? fun name => (nameMatches line name).map (id, ·)

/-- `no_args` of the catalog. -/
def CommandId.noArgs : CommandId → Bool
  | .users | .muteJoins | .help | .clear | .quit => true
  | _ => false

/-- `requires_args` -/
def CommandId.requiresArgs : CommandId → Bool
  | .msg | .reply | .nick | .search => true
  | _ => false

/-- `command_catalog_args_valid` -/
def commandCatalogArgsValid (id : CommandId) (args : Bytes) : Bool :=
  let args := skipSpaces args
  if id = .inbox then args = [] || args = lit "clear"
  else if id.noArgs then args = []
  else if id.requiresArgs then args ≠ []
  else true

/-- The start of `commands_dispatch`: the command line without spaces around it and without a colon. -/
def commandText (input : CBuf MAX_COMMAND_INPUT_LEN) : Bytes :=
  let cmd := skipSpaces input.bytes
  let cmd := (skipSpaces cmd.reverse).reverse
  match cmd with
  | 0x3A :: cmd => skipSpaces cmd
  | cmd => cmd

/-! ## Completion -/

/-- The longest common prefix of some candidates. -/
def commonPrefix : List Bytes → Bytes
  | [] => []
  | name :: names => names.foldl (fun lcp name => ((lcp.zip name).takeWhile fun (a, b) => a == b).map (·.1)) name

/-- `prefix_filter`, and `command_catalog_complete` over the canonical names. -/
def prefixFilter (cands : List Bytes) (typed : Bytes) : List Bytes :=
  cands.filter fun name => typed.length = 0 || strncasecmpEq name typed typed.length

/-- `command_tab_complete`, among the names in the room. -/
def commandTabComplete (names : List (CBuf MAX_USERNAME_LEN)) (buf : CBuf MAX_COMMAND_INPUT_LEN) :
    CBuf MAX_COMMAND_INPUT_LEN :=
  if 0x20 ∉ buf.bytes then
    match prefixFilter (commandCatalog.map fun (_, names) => names.headD []) buf.bytes with
    | [] => buf
    | [name] => CBuf.copy _ (name ++ [0x20])
    | found => if (commonPrefix found).length > buf.bytes.length then CBuf.copy _ (commonPrefix found) else buf
  else
    let cmd := buf.bytes.takeWhile (· != 0x20)
    let argRegion := skipSpaces (buf.bytes.drop cmd.length)
    let isNamed (name : Bytes) := cmd.map toLower == name
    if cmd.length = 0 ∨ cmd.length ≥ 32 then buf
    -- past the first argument
    else if 0x20 ∈ argRegion then buf
    else
      let cands? :=
        if isNamed (lit "theme") || isNamed (lit "color") then some themeNames
        else if isNamed (lit "lang") || isNamed (lit "language") then some [lit "en", lit "zh"]
        else if isNamed (lit "msg") || isNamed (lit "w") then some ((names.map (·.bytes)).take 64)
        else none
      match cands? with
      | none => buf
      | some cands =>
        match prefixFilter cands argRegion with
        | [] => buf
        | [name] => CBuf.copy _ (cmd ++ 0x20 :: name ++ [0x20])
        | found =>
          if (commonPrefix found).length > argRegion.length then CBuf.copy _ (cmd ++ 0x20 :: commonPrefix found)
          else buf

/-! ## COMMAND mode -/

/-- The keys that edit the command line, and those that open and leave it. -/
inductive CommandKey
  | colon
  | slash
  | escape
  | byte (b : UInt8) (rest : Bytes)
  | up
  | down
  | backspace
  | deleteWord
  | deleteLine
  | tab

/-- `handle_key` and the main loop in COMMAND mode, for a key that runs nothing. -/
def commandKey (names : List (CBuf MAX_USERNAME_LEN)) (e : Editor MAX_COMMAND_INPUT_LEN) :
    CommandKey → Editor MAX_COMMAND_INPUT_LEN
  | .colon => e.clear
  | .slash => { e with input := CBuf.copy _ (lit "search ") }
  | .escape => e.clear
  | .byte b rest => e.byte b rest
  | .up => e.up
  | .down => e.down
  | .backspace => e.backspace
  | .deleteWord => e.deleteWord
  | .deleteLine => e.clear
  | .tab => { e with input := commandTabComplete names e.input }

/-! ## No key puts a control in -/

theorem skipSpaces_suffix (value : Bytes) : skipSpaces value <:+ value := List.dropWhile_suffix _

theorem nameMatches_some {line name arg : Bytes} (h : nameMatches line name = some arg) :
    ∃ rest, line = name ++ rest ∧ (byteAt rest 0 = 0 ∨ byteAt rest 0 = 0x20) ∧ arg = skipSpaces rest := by
  unfold nameMatches at h
  split at h
  · rename_i hfront
    obtain ⟨rest, rfl⟩ := List.isPrefixOf_iff_prefix.1 hfront
    rw [List.drop_left] at h
    dsimp only at h
    split at h
    · cases h
    · rename_i hend
      cases h
      exact ⟨rest, rfl, or_iff_not_and_not.2 hend, rfl⟩
  · cases h

/-- A command is a name of the catalog, and its argument is the end of the line. -/
theorem commandCatalogMatch_some {line arg : Bytes} {id : CommandId} (h : commandCatalogMatch line = some (id, arg)) :
    ∃ names name rest, (id, names) ∈ commandCatalog ∧ name ∈ names ∧ skipSpaces line = name ++ rest ∧
      (byteAt rest 0 = 0 ∨ byteAt rest 0 = 0x20) ∧ arg = skipSpaces rest := by
  simp only [commandCatalogMatch, Option.ite_none_left_eq_some] at h
  obtain ⟨⟨id', names⟩, hmem, hentry⟩ := List.exists_of_findSome?_eq_some h.2
  obtain ⟨name, hname, hmatch⟩ := List.exists_of_findSome?_eq_some hentry
  obtain ⟨arg', harg, hpair⟩ := Option.map_eq_some_iff.1 hmatch
  cases hpair
  obtain ⟨rest, hrest⟩ := nameMatches_some harg
  exact ⟨names, name, rest, hmem, hname, hrest⟩

theorem commandCatalogMatch_suffix {line arg : Bytes} {id : CommandId} (h : commandCatalogMatch line = some (id, arg)) :
    arg <:+ line := by
  obtain ⟨names, name, rest, -, -, hline, -, rfl⟩ := commandCatalogMatch_some h
  have hrest : rest <:+ skipSpaces line := hline ▸ List.suffix_append _ _
  exact (skipSpaces_suffix rest).trans (hrest.trans (skipSpaces_suffix line))

theorem commandText_isInfix (input : CBuf MAX_COMMAND_INPUT_LEN) : commandText input <:+: input.bytes := by
  have htrim : (skipSpaces (skipSpaces input.bytes).reverse).reverse <+: skipSpaces input.bytes := by
    rw [← List.reverse_suffix, List.reverse_reverse]
    exact skipSpaces_suffix _
  have hinfix := htrim.isInfix.trans (skipSpaces_suffix input.bytes).isInfix
  simp only [commandText]
  split
  · rename_i cmd hcmd
    rw [hcmd] at hinfix
    exact ((skipSpaces_suffix cmd).trans (List.suffix_cons _ _)).isInfix.trans hinfix
  · exact hinfix

theorem commonPrefix_plain {cands : List Bytes} (h : ∀ name ∈ cands, Plain name) : Plain (commonPrefix cands) := by
  have hfold (names : List Bytes) (lcp : Bytes) (hl : Plain lcp) :
      Plain (names.foldl (fun lcp name => ((lcp.zip name).takeWhile fun (a, b) => a == b).map (·.1)) lcp) := by
    induction names generalizing lcp with
    | nil => exact hl
    | cons name names ih =>
      apply ih _
      intro b hb
      obtain ⟨⟨a, c⟩, hac, rfl⟩ := List.mem_map.1 hb
      exact hl a (List.of_mem_zip ((List.takeWhile_prefix _).subset hac)).1
  cases cands with
  | nil => exact plain_nil
  | cons name names => exact hfold names name (h name List.mem_cons_self)

theorem prefixFilter_plain {cands : List Bytes} (h : ∀ name ∈ cands, Plain name) (typed : Bytes) :
    ∀ name ∈ prefixFilter cands typed, Plain name := fun name hm => h name (List.mem_filter.1 hm).1

theorem commandTabComplete_plain {names : List (CBuf MAX_USERNAME_LEN)} (hn : ∀ name ∈ names, Plain name.bytes)
    {buf : CBuf MAX_COMMAND_INPUT_LEN} (hb : Plain buf.bytes) : Plain (commandTabComplete names buf).bytes := by
  unfold commandTabComplete
  split
  · have hcands := @prefixFilter_plain (commandCatalog.map fun (_, names) => names.headD []) (by decide +kernel)
      buf.bytes
    split
    · exact hb
    · rename_i name hname
      rw [hname] at hcands
      exact Plain.copy (plain_append.2 ⟨hcands name (by simp), by decide +kernel⟩) _
    · split
      · exact (commonPrefix_plain hcands).copy _
      · exact hb
  · have hcmd : Plain (buf.bytes.takeWhile (· != 0x20)) := hb.subset (List.takeWhile_prefix _).subset
    dsimp only
    split
    · exact hb
    split
    · exact hb
    split
    · exact hb
    · rename_i cands hc
      have hcands : ∀ name ∈ cands, Plain name := by
        split at hc
        · cases hc
          decide +kernel
        split at hc
        · cases hc
          decide +kernel
        split at hc
        · cases hc
          intro name hm
          obtain ⟨n, hmem, rfl⟩ := List.mem_map.1 (List.mem_of_mem_take hm)
          exact hn n hmem
        · cases hc
      have hfound := prefixFilter_plain hcands (skipSpaces (buf.bytes.drop (buf.bytes.takeWhile (· != 0x20)).length))
      split
      · exact hb
      · rename_i name hname
        rw [hname] at hfound
        refine Plain.copy ?_ _
        simp only [plain_append, plain_cons, plain_nil, and_true]
        exact ⟨⟨hcmd, by decide, hfound name (by simp)⟩, by decide⟩
      · split
        · refine Plain.copy ?_ _
          simp only [plain_append, plain_cons]
          exact ⟨hcmd, by decide, commonPrefix_plain hfound⟩
        · exact hb

/-- No key of COMMAND mode puts a control into the line. -/
theorem commandKey_plain {names : List (CBuf MAX_USERNAME_LEN)} (hn : ∀ name ∈ names, Plain name.bytes)
    {e : Editor MAX_COMMAND_INPUT_LEN} (h : e.Plain) (key : CommandKey) : (commandKey names e key).Plain := by
  cases key with
  | colon => exact h.clear
  | slash => exact ⟨Plain.copy (by decide +kernel) _, h.history⟩
  | escape => exact h.clear
  | byte b rest => exact h.byte b rest
  | up => exact h.up
  | down => exact h.down
  | backspace => exact h.backspace
  | deleteWord => exact h.deleteWord
  | deleteLine => exact h.clear
  | tab => exact ⟨commandTabComplete_plain hn h.input, h.history⟩

end Tnt
