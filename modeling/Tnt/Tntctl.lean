import Tnt.Lib.Options
import Tnt.ExecDispatch
/-!
# The client program (`tntctl.c`, `tntctl_text.c`)

`tntctl [options] host command [args...]` checks its arguments and runs `ssh`
with them. What it accepts is exactly a list of options, a host and a command;
no argument becomes an option of `ssh` or reaches a shell; and the server runs
the command that was checked, with the arguments as they were given.
-/
open BaseLib

namespace Tnt

def TNT_DEFAULT_PORT_TEXT : Bytes := lit "2222"

/-! ## Texts -/

/-- `tntctl_text_id_t` -/
inductive TntctlTextId
  | invalidPort | invalidLogin | invalidHostKeyMode | invalidKnownHosts | unknownOptionFormat | missingHost
  | invalidHost | loginHostConflict | unknownCommand | invalidRemoteCommand | destinationTooLong
  | invalidDestination | outOfMemory
  | hostKeyOptionTooLong | knownHostsOptionTooLong
  deriving DecidableEq

/-- `tntctl_text`, a format up to its `%s`. -/
def tntctlText : TntctlTextId → UiLang → Bytes
  | .invalidPort => i18nString "invalid port" "端口无效"
  | .invalidLogin => i18nString "invalid login" "登录名无效"
  | .invalidHostKeyMode => i18nString "invalid host-key checking mode" "主机密钥检查模式无效"
  | .invalidKnownHosts => i18nString "invalid known_hosts path" "known_hosts 路径无效"
  | .unknownOptionFormat => i18nString "unknown option: " "未知选项: "
  | .missingHost => i18nString "missing host" "缺少 host"
  | .invalidHost => i18nString "invalid host" "host 无效"
  | .loginHostConflict =>
    i18nString "use either --login or user@host, not both" "只能使用 --login 或 user@host 之一"
  | .unknownCommand => i18nString "unknown or missing command" "未知命令或缺少命令"
  | .invalidRemoteCommand => i18nString "invalid or too-long command" "命令无效或过长"
  | .destinationTooLong => i18nString "destination too long" "目标地址过长"
  | .invalidDestination => i18nString "invalid destination" "目标地址无效"
  | .outOfMemory => i18nString "out of memory" "内存不足"
  | .hostKeyOptionTooLong => i18nString "host-key option too long" "主机密钥选项过长"
  | .knownHostsOptionTooLong => i18nString "known_hosts option too long" "known_hosts 选项过长"

/-! ## Arguments -/

/-- How the program ends where it does not run `ssh`. -/
inductive TntctlEnd
  /-- `print_usage(stdout)` -/
  | usage
  | version
  /-- `print_error`, or `print_error_format`, with `print_usage(stderr)` behind it or not. -/
  | failed (text : TntctlTextId) (value : Bytes) (usage : Bool) (status : Nat)
  deriving DecidableEq

/-- `iscntrl` in the C locale. -/
def isCntrl (b : UInt8) : Bool := b < 0x20 || b == 0x7F

/-- `is_valid_port` -/
def isValidPort (value : Bytes) : Bool :=
  match strtol value with
  | none => false
  | some (port, rest) => rest = [] ∧ port > 0 ∧ port ≤ 65535

/-- `is_safe_ssh_token`, which is true of what is not safe. -/
def isSafeSshToken (value : Bytes) : Bool :=
  value = [] || value.head? = some 0x2D || value.any fun p => isSpace p || isCntrl p || p ∈ lit ";&|\x60$<>\\"

/-- `has_newline` -/
def hasNewline (value : Bytes) : Bool := value.any fun p => p == newline || p == 0x0D

/-- `is_host_key_checking_mode` -/
def isHostKeyCheckingMode (value : Bytes) : Bool := value = lit "yes" || value = lit "accept-new" || value = lit "no"

/-- `is_known_exec_command` -/
def isKnownExecCommand (command : Bytes) : Bool := (execCatalogMatch command).isSome

/-- The loop of `build_remote_command`, behind what is in the buffer; nothing is in front of the first word. -/
def buildLoop (bufSize : Nat) : Bytes → Bytes → List Bytes → Option Bytes
  | _, buffer, [] => some buffer
  | sep, buffer, arg :: args =>
    if hasNewline arg then none
    else if buffer.length + arg.length + sep.length ≥ bufSize then none
    else buildLoop bufSize [0x20] (buffer ++ sep ++ arg) args

/-- `build_remote_command` -/
def buildRemoteCommand (bufSize : Nat) (args : List Bytes) : Option Bytes :=
  if args = [] then none else buildLoop bufSize [] [] args

/-- The options of `main`. -/
structure TntctlOptions where
  port : Bytes
  login : Option Bytes
  hostKeyChecking : Option Bytes
  knownHosts : Option Bytes

def TntctlOptions.default : TntctlOptions := ⟨TNT_DEFAULT_PORT_TEXT, none, none, none⟩

/-- The options that have a value. -/
inductive TntctlOption
  | port | login | hostKeyChecking | knownHosts
  deriving DecidableEq

namespace TntctlOption

/-- How they are spelt. -/
def names : TntctlOption → List Bytes
  | port => [lit "-p", lit "--port"]
  | login => [lit "-l", lit "--login"]
  | hostKeyChecking => [lit "--host-key-checking"]
  | knownHosts => [lit "--known-hosts"]

/-- The values that are accepted. -/
def valid (value : Bytes) : TntctlOption → Bool
  | port => isValidPort value
  | login => !isSafeSshToken value && !(0x40 ∈ value)
  | hostKeyChecking => isHostKeyCheckingMode value
  | knownHosts => value ≠ [] && !hasNewline value

/-- The error where there is no value, or one that is not accepted. -/
def invalid : TntctlOption → TntctlTextId
  | port => .invalidPort
  | login => .invalidLogin
  | hostKeyChecking => .invalidHostKeyMode
  | knownHosts => .invalidKnownHosts

def set (opts : TntctlOptions) (value : Bytes) : TntctlOption → TntctlOptions
  | port => { opts with port := value }
  | login => { opts with login := some value }
  | hostKeyChecking => { opts with hostKeyChecking := some value }
  | knownHosts => { opts with knownHosts := some value }

/-- The option that an argument is. -/
def ofArg (arg : Bytes) : Option TntctlOption :=
  [port, login, hostKeyChecking, knownHosts].find? fun option => option.names.contains arg

end TntctlOption

/-- The options of `tntctl`. -/
def tntctlSyntax : OptionSyntax Bytes TntctlOption TntctlOptions where
  kind := TntctlOption.ofArg
  valid option value := option.valid value
  set option value opts := option.set opts value

/-- The loop of `main`: the options, and the arguments behind them. No option goes by the names that end them. -/
def parseOptions (argv : List Bytes) : Except TntctlEnd (TntctlOptions × List Bytes) :=
  match tntctlSyntax.takeOptions (fun option _ _ => .failed option.invalid [] false TNT_EXIT_USAGE) .default argv with
  | .error e => .error e
  | .ok (opts, []) => .ok (opts, [])
  | .ok (opts, arg :: args) =>
    if arg = lit "--" then .ok (opts, args)
    else if arg = lit "-h" ∨ arg = lit "--help" then .error .usage
    else if arg = lit "-V" ∨ arg = lit "--version" then .error .version
    else if arg.head? = some 0x2D then .error (.failed .unknownOptionFormat arg true TNT_EXIT_USAGE)
    else .ok (opts, arg :: args)

/-- `-o` and an option of `ssh`, where it fits its buffer. -/
def sshOption (bufSize : Nat) (name : Bytes) (text : TntctlTextId) : Option Bytes → Except TntctlEnd (List Bytes)
  | none => .ok []
  | some value =>
    if (name ++ value).length ≥ bufSize then .error (.failed text [] false TNT_EXIT_USAGE)
    else .ok [lit "-o", name ++ value]

/-- `main`, for its arguments: what `ssh` is run with. -/
def tntctlMain (argv : List Bytes) (alloc : Bool) : Except TntctlEnd (List Bytes) :=
  let failed (text : TntctlTextId) : Except TntctlEnd (List Bytes) := .error (.failed text [] false TNT_EXIT_USAGE)
  match parseOptions argv with
  | .error e => .error e
  | .ok (_, []) => .error (.failed .missingHost [] true TNT_EXIT_USAGE)
  | .ok (opts, host :: args) =>
    if isSafeSshToken host then failed .invalidHost
    else if opts.login.isSome ∧ 0x40 ∈ host then failed .loginHostConflict
    else if !(args.head?.any isKnownExecCommand) then failed .unknownCommand
    else
      match buildRemoteCommand MAX_EXEC_COMMAND_LEN args with
      | none => failed .invalidRemoteCommand
      | some remoteCommand =>
        let destination := opts.login.elim [] (· ++ [0x40]) ++ host
        if destination.length ≥ 512 then failed .destinationTooLong
        else if destination.head? = some 0x2D then failed .invalidDestination
        else if !alloc then .error (.failed .outOfMemory [] false TNT_EXIT_ERROR)
        else do
          let hostKeyOption ← sshOption 64 (lit "StrictHostKeyChecking=") .hostKeyOptionTooLong opts.hostKeyChecking
          let knownHostsOption ← sshOption 1024 (lit "UserKnownHostsFile=") .knownHostsOptionTooLong opts.knownHosts
          return [lit "ssh", lit "-p", opts.port] ++ hostKeyOption ++ knownHostsOption ++ [destination, remoteCommand]

/-! ## What is accepted -/

/-- What options set. -/
def optionsOf (given : List tntctlSyntax.Given) : TntctlOptions := OptionSyntax.apply TntctlOptions.default given

/-- The arguments behind the options: all, where the first one is not an option, or those behind `--`. -/
def Behind (args rest : List Bytes) : Prop :=
  args = lit "--" :: rest ∨ args = rest ∧ ∀ arg ∈ rest.head?, arg.head? ≠ some 0x2D

/-- Options begin with a dash, and none is `--`. -/
theorem names_spec : ∀ option : TntctlOption, ∀ name ∈ option.names, name.head? = some 0x2D ∧ name ≠ lit "--" := by
  intro option
  cases option <;> decide

theorem Behind.ends {args rest : List Bytes} (h : Behind args rest) : tntctlSyntax.Ends args := by
  intro arg harg
  show TntctlOption.ofArg arg = none
  rw [TntctlOption.ofArg, List.find?_eq_none]
  intro option _ hmem
  obtain ⟨hhead, hdashes⟩ := names_spec option arg (by simpa using hmem)
  rcases h with rfl | ⟨rfl, hfirst⟩
  · exact hdashes (Option.some.inj harg).symm
  · exact hfirst arg harg hhead

/-- Exactly options with valid values are parsed, up to what ends them. -/
theorem parseOptions_ok {argv rest : List Bytes} {opts : TntctlOptions} :
    parseOptions argv = .ok (opts, rest) ↔ ∃ (given : List tntctlSyntax.Given) (args : List Bytes),
      argv = given.flatMap OptionSyntax.Given.args ++ args ∧ Behind args rest ∧ opts = optionsOf given := by
  constructor
  · intro h
    unfold parseOptions at h
    split at h
    · cases h
    · next opts htake =>
      obtain ⟨given, hargv, -, hopts⟩ := OptionSyntax.takeOptions_ok.1 htake
      cases h
      exact ⟨given, [], hargv, .inr ⟨rfl, nofun⟩, hopts⟩
    next opts arg args htake =>
    obtain ⟨given, hargv, -, hopts⟩ := OptionSyntax.takeOptions_ok.1 htake
    split at h
    · next hdashes =>
      cases h
      exact ⟨given, _, hargv, .inl (by rw [hdashes]), hopts⟩
    split at h
    · cases h
    split at h
    · cases h
    split at h
    · cases h
    · next hhead =>
      cases h
      exact ⟨given, _, hargv, .inr ⟨rfl, fun first hfirst => Option.some.inj hfirst ▸ hhead⟩, hopts⟩
  · rintro ⟨given, args, rfl, hbehind, rfl⟩
    unfold parseOptions
    rw [OptionSyntax.takeOptions_given _ _ given hbehind.ends]
    rcases hbehind with rfl | ⟨rfl, hfirst⟩
    · dsimp only
      rw [if_pos rfl]
      rfl
    cases args with
    | nil => rfl
    | cons arg args =>
      have hhead : arg.head? ≠ some 0x2D := hfirst arg rfl
      have hnot : ∀ name : Bytes, name.head? = some 0x2D → arg ≠ name := fun name hname h => hhead (h ▸ hname)
      dsimp only
      rw [if_neg (hnot _ rfl), if_neg (not_or.2 ⟨hnot _ rfl, hnot _ rfl⟩), if_neg (not_or.2 ⟨hnot _ rfl, hnot _ rfl⟩),
        if_neg hhead]
      rfl

/-- Words with a space between them. -/
def spaced : Bytes → List Bytes → Bytes
  | _, [] => []
  | sep, arg :: args => sep ++ arg ++ spaced [0x20] args

theorem buildLoop_eq_some {bufSize : Nat} {sep buffer out : Bytes} {args : List Bytes} :
    buildLoop bufSize sep buffer args = some out ↔
      (∀ arg ∈ args, hasNewline arg = false) ∧ out = buffer ++ spaced sep args ∧
        (args ≠ [] → out.length < bufSize) := by
  induction args generalizing sep buffer with
  | nil =>
    rw [buildLoop, Option.some.injEq, spaced, List.append_nil]
    exact ⟨fun h => ⟨nofun, h.symm, fun hne => absurd rfl hne⟩, fun h => h.2.1.symm⟩
  | cons arg args ih =>
    rw [buildLoop, List.forall_mem_cons, spaced]
    by_cases hnewline : hasNewline arg = true
    · simp [hnewline]
    rw [if_neg hnewline]
    by_cases hfull : buffer.length + arg.length + sep.length ≥ bufSize
    · rw [if_pos hfull]
      refine iff_of_false nofun ?_
      rintro ⟨-, rfl, hlen⟩
      have := hlen (List.cons_ne_nil _ _)
      simp only [List.length_append] at this
      omega
    · rw [if_neg hfull, ih]
      simp only [List.append_assoc, ne_eq, List.cons_ne_nil, not_false_eq_true, forall_const, Bool.not_eq_true]
        at hnewline ⊢
      refine ⟨fun ⟨hargs, hout, hlen⟩ => ⟨⟨hnewline, hargs⟩, hout, ?_⟩, fun ⟨hargs, hout, hlen⟩ =>
        ⟨hargs.2, hout, fun _ => hlen⟩⟩
      by_cases hnil : args = []
      · subst hnil
        rw [hout]
        simp only [spaced, List.append_nil, List.length_append]
        omega
      · exact hlen hnil

theorem buildRemoteCommand_eq_some {bufSize : Nat} {args : List Bytes} {out : Bytes} :
    buildRemoteCommand bufSize args = some out ↔
      args ≠ [] ∧ (∀ arg ∈ args, hasNewline arg = false) ∧ out = spaced [] args ∧ out.length < bufSize := by
  unfold buildRemoteCommand
  split
  · next hnil => simp [hnil]
  · next hne =>
    rw [buildLoop_eq_some, List.nil_append]
    simp [hne]

theorem sshOption_ok {bufSize : Nat} {name : Bytes} {text : TntctlTextId} {value : Option Bytes} {out : List Bytes} :
    sshOption bufSize name text value = .ok out ↔
      (∀ v ∈ value, (name ++ v).length < bufSize) ∧ out = value.elim [] fun v => [lit "-o", name ++ v] := by
  cases value with
  | none => simp [sshOption, eq_comm]
  | some v =>
    unfold sshOption
    dsimp only
    split
    · next hfull => simp_all
    · next hfits => simp_all [eq_comm]

/-- A command line that is accepted. -/
structure TntctlCommandLine where
  given : List tntctlSyntax.Given
  /-- `--` ends the options. -/
  dashes : Bool
  host : Bytes
  command : Bytes
  args : List Bytes
  host_safe : isSafeSshToken host = false
  one_login : (optionsOf given).login ≠ none → 0x40 ∉ host
  known : isKnownExecCommand command = true
  one_line : ∀ arg ∈ command :: args, hasNewline arg = false
  command_fits : (spaced [] (command :: args)).length < MAX_EXEC_COMMAND_LEN
  destination_fits : ((optionsOf given).login.elim [] (· ++ [0x40]) ++ host).length < 512
  knownHosts_fits : ∀ path ∈ (optionsOf given).knownHosts,
    (lit "UserKnownHostsFile=" ++ path).length < 1024

namespace TntctlCommandLine
variable (line : TntctlCommandLine)

def argv : List Bytes :=
  line.given.flatMap OptionSyntax.Given.args ++
    ((if line.dashes then [lit "--"] else []) ++ line.host :: line.command :: line.args)

def options : TntctlOptions := optionsOf line.given

/-- The user and the host, as `ssh` takes them. -/
def destination : Bytes := line.options.login.elim [] (· ++ [0x40]) ++ line.host

def remoteCommand : Bytes := spaced [] (line.command :: line.args)

/-- The options that `ssh` is given with `-o`. -/
def sshOptions : List Bytes :=
  (line.options.hostKeyChecking.map (lit "StrictHostKeyChecking=" ++ ·)).toList ++
    (line.options.knownHosts.map (lit "UserKnownHostsFile=" ++ ·)).toList

def sshArgv : List Bytes :=
  [lit "ssh", lit "-p", line.options.port] ++ line.sshOptions.flatMap (fun option => [lit "-o", option]) ++
    [line.destination, line.remoteCommand]

end TntctlCommandLine

/-- Options whose values were checked. -/
structure TntctlOptions.Valid (opts : TntctlOptions) : Prop where
  port : isValidPort opts.port = true
  login : ∀ login ∈ opts.login, isSafeSshToken login = false ∧ 0x40 ∉ login
  hostKeyChecking : ∀ mode ∈ opts.hostKeyChecking, isHostKeyCheckingMode mode = true
  knownHosts : ∀ path ∈ opts.knownHosts, path ≠ [] ∧ hasNewline path = false

theorem valid_set {opts : TntctlOptions} (h : opts.Valid) {option : TntctlOption} {value : Bytes}
    (hvalue : option.valid value = true) : (option.set opts value).Valid := by
  obtain ⟨hport, hlogin, hmode, hpath⟩ := h
  cases option with
  | port => exact ⟨hvalue, hlogin, hmode, hpath⟩
  | login => exact ⟨hport, by simpa [TntctlOption.set, TntctlOption.valid] using hvalue, hmode, hpath⟩
  | hostKeyChecking => exact ⟨hport, hlogin, by simpa [TntctlOption.set, TntctlOption.valid] using hvalue, hpath⟩
  | knownHosts => exact ⟨hport, hlogin, hmode, by simpa [TntctlOption.set, TntctlOption.valid] using hvalue⟩

theorem valid_applied (given : List tntctlSyntax.Given) : (optionsOf given).Valid :=
  have hdefault : TntctlOptions.default.Valid := ⟨by decide, nofun, nofun, nofun⟩
  OptionSyntax.apply_induction (P := TntctlOptions.Valid) (fun _ _ _ h hvalue => valid_set h hvalue) hdefault given

theorem hostKeyOption_fits {mode : Bytes} (h : isHostKeyCheckingMode mode = true) :
    (lit "StrictHostKeyChecking=" ++ mode).length < 64 := by
  simp only [isHostKeyCheckingMode, Bool.or_eq_true, decide_eq_true_eq] at h
  rcases h with (rfl | rfl) | rfl <;> decide

theorem safe_head {value : Bytes} (h : isSafeSshToken value = false) : value ≠ [] ∧ value.head? ≠ some 0x2D := by
  simp only [isSafeSshToken, Bool.or_eq_false_iff, decide_eq_false_iff_not] at h
  exact h.1

/-- What is in front of the host is a safe login and an `@`. -/
theorem destination_head {opts : TntctlOptions} (h : opts.Valid) {host : Bytes} (hhost : isSafeSshToken host = false) :
    (opts.login.elim [] (· ++ [0x40]) ++ host).head? ≠ some 0x2D := by
  cases hlogin : opts.login with
  | none => exact (safe_head hhost).2
  | some login =>
    obtain ⟨hne, hhead⟩ := safe_head (h.login login hlogin).1
    rw [Option.elim_some, List.append_assoc, List.head?_append_of_ne_nil _ hne]
    exact hhead

theorem tntctlMain_argv (line : TntctlCommandLine) : tntctlMain line.argv true = .ok line.sshArgv := by
  have hvalid := valid_applied line.given
  have hbehind : Behind ((if line.dashes then [lit "--"] else []) ++ line.host :: line.command :: line.args)
      (line.host :: line.command :: line.args) := by
    cases line.dashes with
    | true => exact .inl rfl
    | false => exact .inr ⟨rfl, fun arg harg => Option.some.inj harg ▸ (safe_head line.host_safe).2⟩
  have hparse : parseOptions line.argv = .ok (line.options, line.host :: line.command :: line.args) :=
    parseOptions_ok.2 ⟨line.given, _, rfl, hbehind, rfl⟩
  have hlogin : ¬ (line.options.login.isSome = true ∧ 0x40 ∈ line.host) := fun ⟨hsome, hat⟩ =>
    line.one_login (Option.isSome_iff_ne_none.1 hsome) hat
  have hknown : ¬ (!((line.command :: line.args).head?.any isKnownExecCommand)) = true := by simp [line.known]
  have hbuild : buildRemoteCommand MAX_EXEC_COMMAND_LEN (line.command :: line.args) = some line.remoteCommand :=
    buildRemoteCommand_eq_some.2 ⟨List.cons_ne_nil _ _, line.one_line, rfl, line.command_fits⟩
  have hmode : sshOption 64 (lit "StrictHostKeyChecking=") .hostKeyOptionTooLong line.options.hostKeyChecking = .ok _ :=
    sshOption_ok.2 ⟨fun mode hm => hostKeyOption_fits (hvalid.hostKeyChecking mode hm), rfl⟩
  have hpath : sshOption 1024 (lit "UserKnownHostsFile=") .knownHostsOptionTooLong line.options.knownHosts = .ok _ :=
    sshOption_ok.2 ⟨line.knownHosts_fits, rfl⟩
  unfold tntctlMain
  simp only [hparse]
  rw [if_neg (by rw [line.host_safe]; exact Bool.false_ne_true), if_neg hlogin, if_neg hknown, hbuild]
  dsimp only
  have hfits : ¬ (line.options.login.elim [] (· ++ [0x40]) ++ line.host).length ≥ 512 :=
    Nat.not_le.2 line.destination_fits
  have hhead : (line.options.login.elim [] (· ++ [0x40]) ++ line.host).head? ≠ some 0x2D :=
    destination_head hvalid line.host_safe
  rw [if_neg hfits, if_neg hhead, if_neg (by decide), hmode, hpath]
  simp only [TntctlCommandLine.sshArgv, TntctlCommandLine.sshOptions, List.flatMap_append, List.append_assoc]
  cases line.options.hostKeyChecking <;> cases line.options.knownHosts <;> rfl

theorem bind_ok {ε α β : Type} {x : Except ε α} {f : α → Except ε β} {b : β} (h : x >>= f = .ok b) :
    ∃ a, x = .ok a ∧ f a = .ok b := by
  cases x with
  | error e => cases h
  | ok a => exact ⟨a, rfl, h⟩

theorem line_of_ssh {argv sshArgv : List Bytes} {alloc : Bool} (h : tntctlMain argv alloc = .ok sshArgv) :
    ∃ line : TntctlCommandLine, line.argv = argv ∧ line.sshArgv = sshArgv := by
  unfold tntctlMain at h
  dsimp only at h
  split at h
  · cases h
  · cases h
  next opts host args hparse =>
  obtain ⟨given, tail, rfl, htail, rfl⟩ := parseOptions_ok.1 hparse
  split at h
  · cases h
  next hsafe =>
  split at h
  · cases h
  next hlogin =>
  split at h
  · cases h
  next hknown =>
  split at h
  · cases h
  next remoteCommand hbuild =>
  split at h
  · cases h
  next hfits =>
  split at h
  · cases h
  split at h
  · cases h
  obtain ⟨hne, hlines, rfl, hlen⟩ := buildRemoteCommand_eq_some.1 hbuild
  obtain ⟨command, args, rfl⟩ := List.exists_cons_of_ne_nil hne
  obtain ⟨hostKeyOption, hmode, h⟩ := bind_ok h
  obtain ⟨knownHostsOption, hpath, h⟩ := bind_ok h
  obtain ⟨-, rfl⟩ := sshOption_ok.1 hmode
  obtain ⟨hpathFits, rfl⟩ := sshOption_ok.1 hpath
  have hone : (optionsOf given).login ≠ none → 0x40 ∉ host := fun hsome hat =>
    hlogin ⟨Option.isSome_iff_ne_none.2 hsome, hat⟩
  obtain ⟨dashes, hdashes⟩ :
      ∃ dashes : Bool, tail = (if dashes then [lit "--"] else []) ++ host :: command :: args := by
    rcases htail with rfl | ⟨rfl, -⟩
    · exact ⟨true, rfl⟩
    · exact ⟨false, rfl⟩
  refine ⟨⟨given, dashes, host, command, args, Bool.eq_false_iff.2 hsafe, hone, by simpa using hknown, hlines, hlen,
    Nat.not_le.1 hfits, hpathFits⟩, ?_, ?_⟩
  · rw [hdashes]
    rfl
  · rw [← Except.ok.inj h]
    simp only [TntctlCommandLine.sshArgv, TntctlCommandLine.sshOptions, TntctlCommandLine.options, List.flatMap_append,
      List.append_assoc]
    cases (optionsOf given).hostKeyChecking <;>
      cases (optionsOf given).knownHosts <;> rfl

/-- Exactly these command lines are accepted: options with valid values, of which the last of each kind counts, a safe
host with one login at most, and a known command on one line that fits. `ssh` is run with the port, an `-o` for each of
the two options that were given, and the destination and the command as one argument each. -/
theorem tntctl_accepts_iff (argv sshArgv : List Bytes) :
    tntctlMain argv true = .ok sshArgv ↔ ∃ line : TntctlCommandLine, line.argv = argv ∧ line.sshArgv = sshArgv := by
  refine ⟨line_of_ssh, ?_⟩
  rintro ⟨line, rfl, rfl⟩
  exact tntctlMain_argv line

/-! ## What `ssh` is given -/

theorem isSafeSshToken_append {a b : Bytes} (ha : isSafeSshToken a = false) (hb : isSafeSshToken b = false) :
    isSafeSshToken (a ++ [0x40] ++ b) = false := by
  obtain ⟨hne, hhead⟩ := safe_head ha
  simp only [isSafeSshToken, Bool.or_eq_false_iff, decide_eq_false_iff_not] at ha hb ⊢
  refine ⟨⟨by simp, ?_⟩, ?_⟩
  · rw [List.append_assoc, List.head?_append_of_ne_nil _ hne]
    exact hhead
  · rw [List.any_append, List.any_append, ha.2, hb.2]
    decide

theorem hasNewline_append (a b : Bytes) : hasNewline (a ++ b) = (hasNewline a || hasNewline b) := List.any_append

theorem hasNewline_spaced {sep : Bytes} (hsep : hasNewline sep = false) {args : List Bytes}
    (h : ∀ arg ∈ args, hasNewline arg = false) : hasNewline (spaced sep args) = false := by
  induction args generalizing sep with
  | nil => rfl
  | cons arg args ih =>
    obtain ⟨harg, hargs⟩ := List.forall_mem_cons.1 h
    rw [spaced, hasNewline_append, hasNewline_append, hsep, harg, ih (by decide) hargs]
    rfl

/-- Nothing that `tntctl` is given becomes an option of `ssh` or a second command line: `ssh` gets a port in range, two
options at most, each with a checked value behind its name, a destination that is no option and has no byte that a shell
or a terminal would take for something else, and one line as the command. The array is large enough for them. -/
theorem tntctl_no_injection {argv sshArgv : List Bytes} {alloc : Bool} (h : tntctlMain argv alloc = .ok sshArgv) :
    ∃ (port : Bytes) (sshOptions : List Bytes) (destination remoteCommand : Bytes),
      sshArgv = [lit "ssh", lit "-p", port] ++ sshOptions.flatMap (fun option => [lit "-o", option]) ++
        [destination, remoteCommand] ∧
      isValidPort port = true ∧
      (∀ option ∈ sshOptions,
        (∃ mode, isHostKeyCheckingMode mode = true ∧ option = lit "StrictHostKeyChecking=" ++ mode) ∨
        ∃ path, path ≠ [] ∧ hasNewline path = false ∧ option = lit "UserKnownHostsFile=" ++ path) ∧
      sshOptions.length ≤ 2 ∧ isSafeSshToken destination = false ∧ hasNewline remoteCommand = false ∧
      remoteCommand.length < MAX_EXEC_COMMAND_LEN ∧ sshArgv.length < (argv.length + 1) * 2 + 8 := by
  obtain ⟨line, rfl, rfl⟩ := line_of_ssh h
  have hvalid := valid_applied line.given
  have hcount : line.sshOptions.length ≤ 2 := by
    have hone : ∀ o : Option Bytes, o.toList.length ≤ 1 := fun o => by cases o <;> simp
    rw [TntctlCommandLine.sshOptions, List.length_append]
    exact Nat.add_le_add (hone _) (hone _)
  refine ⟨_, line.sshOptions, line.destination, line.remoteCommand, rfl, hvalid.port, fun option hoption => ?_,
    hcount, ?_, hasNewline_spaced (by decide) line.one_line, line.command_fits, ?_⟩
  · simp only [TntctlCommandLine.sshOptions, List.mem_append, Option.mem_toList, Option.map_eq_some_iff] at hoption
    rcases hoption with ⟨mode, hmode, rfl⟩ | ⟨path, hpath, rfl⟩
    · exact .inl ⟨mode, hvalid.hostKeyChecking mode hmode, rfl⟩
    · exact .inr ⟨path, (hvalid.knownHosts path hpath).1, (hvalid.knownHosts path hpath).2, rfl⟩
  · cases hlogin : line.options.login with
    | none =>
      rw [TntctlCommandLine.destination, hlogin]
      exact line.host_safe
    | some login =>
      rw [TntctlCommandLine.destination, hlogin]
      exact isSafeSshToken_append (hvalid.login login hlogin).1 line.host_safe
  · have hflat : (line.sshOptions.flatMap fun option => [lit "-o", option]).length = line.sshOptions.length * 2 := by
      simp [List.length_flatMap]
    simp only [TntctlCommandLine.sshArgv, TntctlCommandLine.argv, List.length_append, hflat, List.length_cons,
      List.length_nil]
    omega

theorem tntctl_no_injection_path :
    ∃ (port : Bytes) (sshOptions : List Bytes) (destination remoteCommand : Bytes),
      [lit "ssh", lit "-p", lit "2222", lit "-o", lit "UserKnownHostsFile=-v", lit "host", lit "help"] =
        [lit "ssh", lit "-p", port] ++ sshOptions.flatMap (fun option => [lit "-o", option]) ++
          [destination, remoteCommand] ∧
      isSafeSshToken destination = false := by
  have h : tntctlMain [lit "--known-hosts", lit "-v", lit "host", lit "help"] true =
      .ok [lit "ssh", lit "-p", lit "2222", lit "-o", lit "UserKnownHostsFile=-v", lit "host", lit "help"] := by
    decide
  obtain ⟨port, sshOptions, destination, remoteCommand, hargv, -, -, -, hsafe, -⟩ := tntctl_no_injection h
  exact ⟨port, sshOptions, destination, remoteCommand, hargv, hsafe⟩

/-! ## What the server runs -/

theorem spaced_cons (command : Bytes) (args : List Bytes) :
    spaced [] (command :: args) = command ++ spaced [0x20] args := by
  rw [spaced, List.nil_append]

theorem startsWithGap_spaced (args : List Bytes) : StartsWithGap (spaced [0x20] args) := by
  cases args with
  | nil => exact nofun
  | cons arg args =>
    intro b hb
    cases hb
    rfl

theorem zero_notMem_spaced {sep : Bytes} (hsep : 0 ∉ sep) {args : List Bytes} (h : ∀ arg ∈ args, 0 ∉ arg) :
    0 ∉ spaced sep args := by
  induction args generalizing sep with
  | nil => exact List.not_mem_nil
  | cons arg args ih =>
    obtain ⟨harg, hargs⟩ := List.forall_mem_cons.1 h
    simp only [spaced, List.mem_append, not_or]
    exact ⟨⟨hsep, harg⟩, ih (by decide) hargs⟩

/-- The request of a client that `ssh` was run for, as `channel_exec_request` leaves it. -/
def requestOf (lang : UiLang) (ctx : SessionContext) (remoteCommand : Bytes) : ExecRequest :=
  let ctx := channelExecRequest ctx (some remoteCommand)
  ⟨lang, ctx.requestedUser, ctx.execCommand, ctx.execCommandTooLong⟩

theorem command_of_requestOf (lang : UiLang) {ctx : SessionContext} (hctx : ctx.execCommandTooLong = false)
    {remoteCommand : Bytes} (h0 : 0 ∉ remoteCommand) (hlen : remoteCommand.length < MAX_EXEC_COMMAND_LEN) :
    (requestOf lang ctx remoteCommand).command.bytes = remoteCommand ∧
      (requestOf lang ctx remoteCommand).tooLong = false := by
  unfold requestOf channelExecRequest
  dsimp only
  rw [if_neg (Nat.not_le.2 hlen)]
  exact ⟨CBuf.copy_bytes h0 hlen, hctx⟩

theorem last_sshArgv (line : TntctlCommandLine) : line.sshArgv.getLast? = some line.remoteCommand := by
  rw [TntctlCommandLine.sshArgv, List.getLast?_append]
  rfl

theorem remote_of_line {line : TntctlCommandLine} (hargv : ∀ arg ∈ line.command :: line.args, 0 ∉ arg) {lang : UiLang}
    {ctx : SessionContext} (hctx : ctx.execCommandTooLong = false) {id : ExecCommandId} {given : Option Bytes}
    (hmatch : execCatalogMatch line.command = some (id, given)) :
    (requestOf lang ctx line.remoteCommand).tooLong = false ∧
      (requestOf lang ctx line.remoteCommand).command.bytes = line.remoteCommand ∧
      execCatalogMatch (trimAsciiWhitespace line.remoteCommand) =
        some (id, textOrNull (trimEnd (execSkipSpaces (given.getD [] ++ spaced [0x20] line.args)))) := by
  obtain ⟨h0, h0'⟩ := List.forall_mem_cons.1 hargv
  have hzero : 0 ∉ spaced [0x20] line.args := zero_notMem_spaced (by decide) h0'
  have hremote : line.remoteCommand = line.command ++ spaced [0x20] line.args := spaced_cons _ _
  have hremote0 : 0 ∉ line.remoteCommand := hremote ▸ fun hm => (List.mem_append.1 hm).elim h0 hzero
  obtain ⟨hbytes, hlong⟩ := command_of_requestOf lang hctx hremote0 line.command_fits
  have hjoined := execCatalogMatch_append h0 hzero (startsWithGap_spaced line.args) hmatch
  rw [← hremote] at hjoined
  refine ⟨hlong, hbytes, ?_⟩
  rw [execCatalogMatch_trim hremote0 hjoined, getD_textOrNull]

/-- The server is asked for what was checked. For every command line that `tntctl` accepts, the command that `ssh` is
run with arrives whole, and `exec_dispatch` finds in it the command that `tntctl` found in the word for it; its argument
is what that word holds behind the command, and the arguments, with a space between them and none around them. -/
theorem tntctl_dispatched {argv sshArgv : List Bytes} {alloc : Bool} (hargv : ∀ arg ∈ argv, 0 ∉ arg)
    (h : tntctlMain argv alloc = .ok sshArgv) :
    ∃ command args remoteCommand id given, (command :: args) <:+ argv ∧ sshArgv.getLast? = some remoteCommand ∧
      execCatalogMatch command = some (id, given) ∧
      ∀ lang ctx, ctx.execCommandTooLong = false →
        (requestOf lang ctx remoteCommand).tooLong = false ∧
        (requestOf lang ctx remoteCommand).command.bytes = remoteCommand ∧
        execCatalogMatch (trimAsciiWhitespace remoteCommand) =
          some (id, textOrNull (trimEnd (execSkipSpaces (given.getD [] ++ spaced [0x20] args)))) := by
  obtain ⟨line, rfl, rfl⟩ := line_of_ssh h
  have hsuffix : (line.command :: line.args) <:+ line.argv :=
    ⟨line.given.flatMap OptionSyntax.Given.args ++ ((if line.dashes then [lit "--"] else []) ++ [line.host]), by
      simp [TntctlCommandLine.argv]⟩
  obtain ⟨⟨id, given⟩, hmatch⟩ := Option.isSome_iff_exists.1 line.known
  exact ⟨line.command, line.args, line.remoteCommand, id, given, hsuffix, last_sshArgv line, hmatch,
    fun lang ctx hctx => remote_of_line (fun arg harg => hargv arg (hsuffix.subset harg)) hctx hmatch⟩

/-- An option, a host and two words. -/
def postArgv : List Bytes := [lit "-p", lit "2200", lit "host", lit " post", lit "hi", lit "there "]

theorem tntctl_dispatched_post : ∃ sshArgv command args id given, tntctlMain postArgv true = .ok sshArgv ∧
    (command :: args) <:+ postArgv ∧ sshArgv.getLast? = some (lit " post hi there ") ∧
    execCatalogMatch command = some (id, given) ∧
    execCatalogMatch (lit "post hi there") =
      some (id, textOrNull (trimEnd (execSkipSpaces (given.getD [] ++ spaced [0x20] args)))) := by
  have hargv : ∀ arg ∈ postArgv, 0 ∉ arg := by decide
  have h : tntctlMain postArgv true = .ok [lit "ssh", lit "-p", lit "2200", lit "host", lit " post hi there "] := by
    decide
  obtain ⟨command, args, remoteCommand, id, given, hsuffix, hlast, hmatch, hserver⟩ := tntctl_dispatched hargv h
  obtain rfl : lit " post hi there " = remoteCommand := Option.some.inj hlast
  exact ⟨_, command, args, id, given, h, hsuffix, hlast, hmatch, (hserver .en .init rfl).2.2⟩

end Tnt
