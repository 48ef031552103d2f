import Mathlib.Data.List.DropRight
import Tnt.Publication
import Tnt.SystemMessage
/-!
# The commands of `ssh HOST COMMAND` (`exec_catalog.c`)

The catalog names a command by the first word of a line, and the rest of the line
is its argument. Spaces around the line, which `exec_dispatch` takes away before
it looks, change nothing about either (`execCatalogMatch_trim`).
-/
open BaseLib

namespace Tnt

def TNT_EXIT_OK : Nat := 0
def TNT_EXIT_ERROR : Nat := 1
def TNT_EXIT_USAGE : Nat := 64

/-- `tnt_exec_command_id_t` -/
inductive ExecCommandId
  | help | health | users | stats | tail | dump | post | exit
  deriving DecidableEq

/-- `exec_catalog_entry_t` -/
structure ExecCatalogEntry where
  id : ExecCommandId
  name : Bytes
  aliasName : Option Bytes
  usage : Bytes
  usageSyntax : Bytes
  summary : UiLang → Bytes
  noArgs : Bool
  optionalJson : Bool
  requiresArgs : Bool

/-- `I18N_STRING` -/
def i18nString (en zh : String) : UiLang → Bytes
  | .en => lit en
  | .zh => lit zh

/-- `entries` -/
def execCatalog : List ExecCatalogEntry := [
  ⟨.help, lit "help", some (lit "--help"), lit "help", lit "help", i18nString "Show this help" "显示此帮助", true, false,
    false⟩,
  ⟨.health, lit "health", none, lit "health", lit "health", i18nString "Print service health" "输出服务健康状态", true,
    false, false⟩,
  ⟨.users, lit "users", none, lit "users [--json]", lit "users [--json]", i18nString "List online users" "列出在线用户",
    false, true, false⟩,
  ⟨.stats, lit "stats", none, lit "stats [--json]", lit "stats [--json]", i18nString "Print room statistics" "输出房间统计",
    false, true, false⟩,
  ⟨.tail, lit "tail", none, lit "tail [N]", lit "tail [N] | tail -n N",
    i18nString "Print recent messages" "输出最近消息", false, false, false⟩,
  ⟨.tail, lit "tail", none, lit "tail -n N", lit "tail [N] | tail -n N",
    i18nString "Print recent messages" "输出最近消息", false, false, false⟩,
  ⟨.dump, lit "dump", none, lit "dump [N]", lit "dump [N] | dump -n N | dump --all",
    i18nString "Export persisted messages" "导出持久化消息", false, false, false⟩,
  ⟨.dump, lit "dump", none, lit "dump -n N", lit "dump [N] | dump -n N | dump --all",
    i18nString "Export persisted messages" "导出持久化消息", false, false, false⟩,
  ⟨.dump, lit "dump", none, lit "dump --all", lit "dump [N] | dump -n N | dump --all",
    i18nString "Export persisted messages" "导出持久化消息", false, false, false⟩,
  ⟨.post, lit "post", none, lit "post MESSAGE", lit "post MESSAGE",
    i18nString "Post a message non-interactively" "非交互发送消息", false, false, true⟩,
  ⟨.post, lit "post", none, lit "post \"/me act\"", lit "post MESSAGE",
    i18nString "Post an action message" "发送动作消息", false, false, true⟩,
  ⟨.exit, lit "exit", none, lit "exit", lit "exit", i18nString "Exit successfully" "成功退出", true, false, false⟩]

/-- `entry_for_id` -/
def entryForId (id : ExecCommandId) : Option ExecCatalogEntry := execCatalog.find? (·.id = id)

/-- What `skip_spaces` of the catalog skips. -/
def isGap (b : UInt8) : Bool := b == 0x20 || b == 0x09

def execSkipSpaces (value : Bytes) : Bytes := value.dropWhile isGap

/-- A pointer to the text, and NULL where there is none. -/
def textOrNull (text : Bytes) : Option Bytes := if text = [] then none else some text

@[simp] theorem getD_textOrNull (text : Bytes) : (textOrNull text).getD [] = text := by
  unfold textOrNull
  split
  · next h => exact h.symm
  · rfl

/-- `name_matches`, with what `args` points to. -/
def execNameMatches (line name : Bytes) : Option (Option Bytes) :=
  if name.isPrefixOf line then
    let rest := line.drop name.length
    if byteAt rest 0 ≠ 0 ∧ byteAt rest 0 ≠ 0x20 ∧ byteAt rest 0 ≠ 0x09 then none
    else some (textOrNull (execSkipSpaces rest))
  else none

/-- `exec_catalog_match` -/
def execCatalogMatch (line : Bytes) : Option (ExecCommandId × Option Bytes) :=
  let line := execSkipSpaces line
  if line = [] then none
  else
    execCatalog.findSome? fun entry =>
      ((execNameMatches line entry.name).or (entry.aliasName.bind (execNameMatches line))).map (entry.id, ·)

/-- `exec_catalog_args_valid` -/
def execCatalogArgsValid (id : ExecCommandId) (args : Option Bytes) : Bool :=
  match entryForId id with
  | none => false
  | some entry =>
    if entry.noArgs then args.getD [] = []
    else if entry.optionalJson then args = none ∨ args = some (lit "--json")
    else if entry.requiresArgs then args.getD [] ≠ []
    else true

/-- `exec_catalog_append_help`; `%-15s` pads by bytes. -/
def execCatalogAppendHelp (bufSize : Nat) (buffer : Bytes) (lang : UiLang) : Bytes :=
  let header := i18nString "TNT exec interface\nCommands:\n" "TNT exec 接口\n命令:\n"
  execCatalog.foldl (fun buffer entry =>
    bufferAppend bufSize buffer (lit "  " ++ entry.usage ++ List.replicate (15 - entry.usage.length) 0x20 ++
      lit " " ++ entry.summary lang ++ [newline])) (bufferAppend bufSize buffer (header lang))

/-- `exec_catalog_append_usage` -/
def execCatalogAppendUsage (bufSize : Nat) (buffer : Bytes) (id : ExecCommandId) (lang : UiLang) : Bytes :=
  match entryForId id with
  | none => buffer
  | some entry =>
    bufferAppend bufSize buffer (entry.name ++ i18nString ": usage: " ": 用法: " lang ++ entry.usageSyntax ++ [newline])

/-! ## The first word of a line -/

/-- The command of a line. -/
def commandWord (line : Bytes) : Bytes := (execSkipSpaces line).takeWhile (!isGap ·)

/-- What stands behind the command. -/
def commandArgs (line : Bytes) : Bytes := execSkipSpaces ((execSkipSpaces line).dropWhile (!isGap ·))

/-- The command that goes by a word. -/
def idForWord (word : Bytes) : Option ExecCommandId :=
  execCatalog.findSome? fun entry => if entry.name = word ∨ entry.aliasName = some word then some entry.id else none

/-- The names of the catalog. -/
def execNames : List Bytes := execCatalog.flatMap fun entry => entry.name :: entry.aliasName.toList

/-- A name is one word of printable bytes. -/
theorem execNames_word : ∀ name ∈ execNames, name ≠ [] ∧ ∀ b ∈ name, isSpace b = false ∧ b ≠ 0 := by
  decide +kernel

theorem isGap_iff {b : UInt8} : isGap b = true ↔ b = 0x20 ∨ b = 0x09 := by
  simp [isGap]

theorem isGap_isSpace {b : UInt8} (h : isGap b = true) : isSpace b = true := by
  rcases isGap_iff.1 h with rfl | rfl <;> rfl

theorem not_isGap_of_name {name : Bytes} (hname : name ∈ execNames) {b : UInt8} (hb : b ∈ name) : isGap b = false := by
  have hspace := ((execNames_word name hname).2 b hb).1
  rw [Bool.eq_false_iff] at hspace ⊢
  exact fun hgap => hspace (isGap_isSpace hgap)

/-- A name matches where it is the first word. -/
theorem execNameMatches_eq {line name : Bytes} (hname : ∀ b ∈ name, isGap b = false) (h0 : 0 ∉ line) :
    execNameMatches line name =
      if name = line.takeWhile (!isGap ·) then some (textOrNull (execSkipSpaces (line.dropWhile (!isGap ·))))
      else none := by
  unfold execNameMatches
  by_cases hprefix : name.isPrefixOf line = true
  · obtain ⟨rest, rfl⟩ := List.isPrefixOf_iff_prefix.1 hprefix
    have hall : ∀ b ∈ name, (!isGap b) = true := fun b hb => by rw [hname b hb]; rfl
    rw [if_pos hprefix, List.drop_left]
    dsimp only
    rw [List.takeWhile_append_of_pos hall, List.dropWhile_append_of_pos hall]
    cases rest with
    | nil => simp [byteAt]
    | cons b rest =>
      have hb : b ≠ 0 := fun hb => h0 (by simp [hb])
      have hat : byteAt (b :: rest) 0 = b := byteAt_cons b rest
      rw [hat]
      by_cases hgap : isGap b = true
      · rw [if_neg (by rcases isGap_iff.1 hgap with rfl | rfl <;> decide), List.takeWhile_cons_of_neg (by simp [hgap]),
          List.dropWhile_cons_of_neg (by simp [hgap]), List.append_nil, if_pos rfl]
      · have hgap' : b ≠ 0x20 ∧ b ≠ 0x09 := not_or.1 fun h => hgap (isGap_iff.2 h)
        rw [if_pos ⟨hb, hgap'⟩, if_neg]
        rw [List.takeWhile_cons_of_pos (by simp [hgap])]
        exact fun h => by simpa using congrArg List.length h
  · rw [if_neg hprefix, if_neg]
    rintro rfl
    exact hprefix (List.isPrefixOf_iff_prefix.2 (List.takeWhile_prefix _))

/-- The catalog finds a command by the first word of a line, and what is behind it is the argument. -/
theorem execCatalogMatch_eq {line : Bytes} (h0 : 0 ∉ line) :
    execCatalogMatch line = (idForWord (commandWord line)).map (·, textOrNull (commandArgs line)) := by
  have h0' : 0 ∉ execSkipSpaces line := fun h => h0 ((List.dropWhile_suffix _).subset h)
  unfold execCatalogMatch idForWord commandWord commandArgs
  generalize execSkipSpaces line = text at h0'
  dsimp only
  by_cases hnil : text = []
  · subst hnil
    decide
  rw [if_neg hnil]
  suffices hentries : ∀ entries : List ExecCatalogEntry, (∀ entry ∈ entries, entry ∈ execCatalog) →
      (entries.findSome? fun entry =>
        ((execNameMatches text entry.name).or (entry.aliasName.bind (execNameMatches text))).map (entry.id, ·)) =
      (entries.findSome? fun entry =>
        if entry.name = text.takeWhile (!isGap ·) ∨ entry.aliasName = some (text.takeWhile (!isGap ·)) then
          some entry.id else none).map (·, textOrNull (execSkipSpaces (text.dropWhile (!isGap ·)))) from
    hentries execCatalog fun _ => id
  intro entries hentries
  induction entries with
  | nil => rfl
  | cons entry entries ih =>
    obtain ⟨hentry, hrest⟩ := List.forall_mem_cons.1 hentries
    have hmem : ∀ name ∈ entry.name :: entry.aliasName.toList, ∀ b ∈ name, isGap b = false := fun name hname b hb =>
      not_isGap_of_name (List.mem_flatMap.2 ⟨entry, hentry, hname⟩) hb
    obtain ⟨hname, halias⟩ := List.forall_mem_cons.1 hmem
    have hsecond : entry.aliasName.bind (execNameMatches text) =
        if entry.aliasName = some (text.takeWhile (!isGap ·)) then
          some (textOrNull (execSkipSpaces (text.dropWhile (!isGap ·)))) else none := by
      cases hcase : entry.aliasName with
      | none => rfl
      | some name =>
        rw [Option.bind_some, execNameMatches_eq (halias name (by simp [hcase])) h0']
        simp only [Option.some.injEq]
    rw [List.findSome?_cons, List.findSome?_cons, execNameMatches_eq hname h0', hsecond, ih hrest]
    by_cases hfirst : entry.name = text.takeWhile (!isGap ·)
    · simp [hfirst]
    · by_cases hother : entry.aliasName = some (text.takeWhile (!isGap ·)) <;> simp [hfirst, hother]

theorem mem_execNames {word : Bytes} {id : ExecCommandId} (h : idForWord word = some id) : word ∈ execNames := by
  obtain ⟨entry, hentry, hword⟩ := List.exists_of_findSome?_eq_some h
  refine List.mem_flatMap.2 ⟨entry, hentry, ?_⟩
  split at hword
  · next hname =>
    rcases hname with rfl | halias
    · exact List.mem_cons_self
    · simp [halias]
  · cases hword

/-! ## Spaces around a line -/

/-- The end of `trim_ascii_whitespace`. -/
def trimEnd (text : Bytes) : Bytes := text.rdropWhile isSpace

theorem trimEnd_append {word : Bytes} (hword : ∀ b ∈ word, isSpace b = false) (rest : Bytes) :
    trimEnd (word ++ rest) = word ++ trimEnd rest := by
  have hstop : word.reverse.dropWhile isSpace = word.reverse := by
    rw [List.dropWhile_eq_self_iff]
    intro hlen
    rw [hword _ (List.mem_reverse.1 (List.getElem_mem hlen))]
    exact Bool.false_ne_true
  unfold trimEnd List.rdropWhile
  rw [List.reverse_append, List.dropWhile_append]
  split
  · next hall =>
    rw [List.isEmpty_iff.1 hall, hstop, List.reverse_reverse, List.reverse_nil, List.append_nil]
  · rw [List.reverse_append, List.reverse_reverse]

theorem trimEnd_isPrefix (text : Bytes) : trimEnd text <+: text := List.rdropWhile_prefix isSpace text

/-- Spaces may be taken away at the end before or after some are skipped in front. -/
theorem dropWhile_trimEnd {p : UInt8 → Bool} (hp : ∀ b, p b = true → isSpace b = true) (text : Bytes) :
    (trimEnd text).dropWhile p = trimEnd (text.dropWhile p) := by
  induction text with
  | nil => rfl
  | cons b text ih =>
    by_cases hb : p b = true
    · rw [List.dropWhile_cons_of_pos hb, ← ih]
      unfold trimEnd List.rdropWhile
      rw [List.reverse_cons, List.dropWhile_append]
      split
      · next hall =>
        rw [List.isEmpty_iff.1 hall, List.dropWhile_cons_of_pos (hp b hb)]
        rfl
      · rw [List.reverse_append]
        exact List.dropWhile_cons_of_pos hb
    · rw [List.dropWhile_cons_of_neg hb]
      rcases hend : trimEnd (b :: text) with _ | ⟨c, rest⟩
      · rfl
      · have hhead : c = b := (List.cons_prefix_cons.1 (hend ▸ trimEnd_isPrefix (b :: text))).1
        exact List.dropWhile_cons_of_neg (hhead ▸ hb)

theorem execSkipSpaces_trimEnd (text : Bytes) : execSkipSpaces (trimEnd text) = trimEnd (execSkipSpaces text) :=
  dropWhile_trimEnd (fun _ => isGap_isSpace) text

theorem dropWhile_isSpace_gap (text : Bytes) : (execSkipSpaces text).dropWhile isSpace = text.dropWhile isSpace := by
  induction text with
  | nil => rfl
  | cons b text ih =>
    by_cases hgap : isGap b = true
    · have hskip : execSkipSpaces (b :: text) = execSkipSpaces text := List.dropWhile_cons_of_pos hgap
      rw [hskip, ih, List.dropWhile_cons_of_pos (isGap_isSpace hgap)]
    · have hskip : execSkipSpaces (b :: text) = b :: text := List.dropWhile_cons_of_neg hgap
      rw [hskip]

/-- Nothing, or something behind a gap. -/
def StartsWithGap (rest : Bytes) : Prop := ∀ b ∈ rest.head?, isGap b = true

theorem StartsWithGap.isPrefix {rest text : Bytes} (h : StartsWithGap rest) (htext : text <+: rest) :
    StartsWithGap text := by
  obtain ⟨more, rfl⟩ := htext
  cases text with
  | nil => exact nofun
  | cons b text => exact h

/-- The words of a line that begins with a name. -/
theorem words_append {word rest : Bytes} (hword : word ∈ execNames) (hrest : StartsWithGap rest) :
    commandWord (word ++ rest) = word ∧ commandArgs (word ++ rest) = execSkipSpaces rest := by
  have hall : ∀ b ∈ word, (!isGap b) = true := fun b hb => by rw [not_isGap_of_name hword hb]; rfl
  have hskip : execSkipSpaces (word ++ rest) = word ++ rest := by
    obtain ⟨b, t, rfl⟩ := List.exists_cons_of_ne_nil (execNames_word _ hword).1
    exact List.dropWhile_cons_of_neg (by rw [not_isGap_of_name hword List.mem_cons_self]; exact Bool.false_ne_true)
  rw [commandWord, commandArgs, hskip, List.takeWhile_append_of_pos hall, List.dropWhile_append_of_pos hall]
  cases rest with
  | nil => exact ⟨List.append_nil _, rfl⟩
  | cons b rest =>
    have hb : isGap b = true := hrest b rfl
    rw [List.takeWhile_cons_of_neg (by simp [hb]), List.dropWhile_cons_of_neg (by simp [hb]), List.append_nil]
    exact ⟨rfl, rfl⟩

/-- A line with a command is that command between gaps and what starts with a gap. -/
theorem execSkipSpaces_words (line : Bytes) :
    ∃ rest, execSkipSpaces line = commandWord line ++ rest ∧ StartsWithGap rest ∧
      commandArgs line = execSkipSpaces rest := by
  refine ⟨(execSkipSpaces line).dropWhile (!isGap ·), List.takeWhile_append_dropWhile.symm, fun b hb => ?_, rfl⟩
  have hnot := List.head?_dropWhile_not (!isGap ·) (execSkipSpaces line)
  rw [hb] at hnot
  simpa using hnot

/-- A line without the spaces around it names the same command, whose argument has no spaces at its end. -/
theorem execCatalogMatch_trim {line : Bytes} (h0 : 0 ∉ line) {id : ExecCommandId} {args : Option Bytes}
    (h : execCatalogMatch line = some (id, args)) :
    execCatalogMatch (trimAsciiWhitespace line) = some (id, textOrNull (trimEnd (args.getD []))) := by
  have h0' : 0 ∉ trimAsciiWhitespace line := fun hm => h0 ((isInfix_trimAsciiWhitespace line).subset hm)
  rw [execCatalogMatch_eq h0, Option.map_eq_some_iff] at h
  obtain ⟨id, hid, hargs⟩ := h
  cases hargs
  have hmem := mem_execNames hid
  obtain ⟨rest, htext, hrest, hargs⟩ := execSkipSpaces_words line
  have hword : ∀ b ∈ commandWord line, isSpace b = false := fun b hb => ((execNames_word _ hmem).2 b hb).1
  -- In front of the command both skip the same bytes: none of a name is a space.
  have hskip : line.dropWhile isSpace = execSkipSpaces line := by
    obtain ⟨b, t, hcons⟩ := List.exists_cons_of_ne_nil (execNames_word _ hmem).1
    have hb : isSpace b = false := hword b (hcons ▸ List.mem_cons_self)
    rw [← dropWhile_isSpace_gap, htext, hcons, List.cons_append]
    exact List.dropWhile_cons_of_neg (by rw [hb]; exact Bool.false_ne_true)
  have htrim : trimAsciiWhitespace line = commandWord line ++ trimEnd rest := by
    rw [← trimEnd_append hword, ← htext, ← hskip]
    rfl
  obtain ⟨hword', hargs'⟩ := words_append hmem (hrest.isPrefix (trimEnd_isPrefix rest))
  rw [execCatalogMatch_eq h0', htrim, hword', hid, hargs', execSkipSpaces_trimEnd, ← hargs]
  rw [getD_textOrNull]
  rfl

/-! ## More words behind a line -/

theorem execSkipSpaces_append (text rest : Bytes) :
    execSkipSpaces (text ++ rest) = execSkipSpaces (execSkipSpaces text ++ rest) := by
  induction text with
  | nil => rfl
  | cons b text ih =>
    by_cases hgap : isGap b = true
    · have hskip : execSkipSpaces (b :: text) = execSkipSpaces text := List.dropWhile_cons_of_pos hgap
      rw [hskip, ← ih]
      exact List.dropWhile_cons_of_pos hgap
    · have hskip : execSkipSpaces (b :: text) = b :: text := List.dropWhile_cons_of_neg hgap
      rw [hskip]

/-- A line names the same command with more words behind it, which its argument then has too. -/
theorem execCatalogMatch_append {line rest : Bytes} (h0 : 0 ∉ line) (h0' : 0 ∉ rest) (hrest : StartsWithGap rest)
    {id : ExecCommandId} {args : Option Bytes} (h : execCatalogMatch line = some (id, args)) :
    execCatalogMatch (line ++ rest) = some (id, textOrNull (execSkipSpaces (args.getD [] ++ rest))) := by
  rw [execCatalogMatch_eq h0, Option.map_eq_some_iff] at h
  obtain ⟨id, hid, hargs⟩ := h
  cases hargs
  have hmem := mem_execNames hid
  obtain ⟨tail, htext, htail, hargs⟩ := execSkipSpaces_words line
  have hmore : StartsWithGap (tail ++ rest) := by
    cases tail with
    | nil => exact hrest
    | cons b tail => exact htail
  have hskip : execSkipSpaces (line ++ rest) = execSkipSpaces (commandWord line ++ (tail ++ rest)) := by
    rw [execSkipSpaces_append, htext, List.append_assoc]
  obtain ⟨hword, hmoreArgs⟩ := words_append hmem hmore
  have hword' : commandWord (line ++ rest) = commandWord line := by
    rw [commandWord, hskip]
    exact hword
  have hargs' : commandArgs (line ++ rest) = execSkipSpaces (tail ++ rest) := by
    rw [commandArgs, hskip]
    exact hmoreArgs
  rw [execCatalogMatch_eq fun hm => (List.mem_append.1 hm).elim h0 h0', hword', hid, hargs', getD_textOrNull, hargs,
    ← execSkipSpaces_append]
  rfl

end Tnt
