import Tnt.Lib.Options
import Tnt.Capacity
import Tnt.ExecCatalog
/-!
# The options of the server (`main.c`, `config_defaults.c`, `cli_text.c`)

The server is configured by environment variables, and by options that take their
place: an option is checked as its variable would be read, so that one that is
accepted is in force, and never falls back to a default (`options_in_force`).
-/
open BaseLib

namespace Tnt

def TNT_CONFIG_PORT : IntConfigSpec := ⟨lit "PORT", 2222, 1, 65535, by decide⟩
def TNT_CONFIG_IDLE_TIMEOUT : IntConfigSpec := ⟨lit "TNT_IDLE_TIMEOUT", 1800, 0, 86400, by decide⟩
def TNT_CONFIG_SSH_LOG_LEVEL : IntConfigSpec := ⟨lit "TNT_SSH_LOG_LEVEL", 0, 0, 4, by decide⟩

/-- `tnt_config_parse_int` -/
def configParseInt (value : Bytes) (spec : IntConfigSpec) : Option Int :=
  if value = [] then none
  else
    match strtol value with
    | some (val, []) => if val < spec.minValue ∨ val > spec.maxValue then none else some val
    | _ => none

/-- `is_config_token` -/
def isConfigToken (value : Bytes) : Bool := value ≠ [] && value.all fun p => 32 < p && p != 127

/-! ## The options -/

/-- What `main` keeps of its options, and the environment that it changes. -/
structure ServerOptions where
  env : Environment
  port : Int
  logCheckPath : Option Bytes
  logRecoverPath : Option Bytes

/-- The settings that `main` begins with. -/
def ServerOptions.start (env : Environment) : ServerOptions := ⟨env, configEnvInt env TNT_CONFIG_PORT, none, none⟩

inductive ServerOption
  | port | stateDir | bind | publicHost | maxConnections | maxConnPerIp | maxConnRatePerIp | rateLimit | idleTimeout
  | sshLogLevel | logCheck | logRecover
  deriving DecidableEq

namespace ServerOption

def all : List ServerOption :=
  [port, stateDir, bind, publicHost, maxConnections, maxConnPerIp, maxConnRatePerIp, rateLimit, idleTimeout,
    sshLogLevel, logCheck, logRecover]

def names : ServerOption → List Bytes
  | port => [lit "-p", lit "--port"]
  | stateDir => [lit "-d", lit "--state-dir"]
  | bind => [lit "--bind"]
  | publicHost => [lit "--public-host"]
  | maxConnections => [lit "--max-connections"]
  | maxConnPerIp => [lit "--max-conn-per-ip"]
  | maxConnRatePerIp => [lit "--max-conn-rate-per-ip"]
  | rateLimit => [lit "--rate-limit"]
  | idleTimeout => [lit "--idle-timeout"]
  | sshLogLevel => [lit "--ssh-log-level"]
  | logCheck => [lit "--log-check"]
  | logRecover => [lit "--log-recover"]

/-- The options that `set_numeric_env_option` is called for. -/
def spec : ServerOption → Option IntConfigSpec
  | maxConnections => some TNT_CONFIG_MAX_CONNECTIONS
  | maxConnPerIp => some TNT_CONFIG_MAX_CONN_PER_IP
  | maxConnRatePerIp => some TNT_CONFIG_MAX_CONN_RATE_PER_IP
  | rateLimit => some TNT_CONFIG_RATE_LIMIT
  | idleTimeout => some TNT_CONFIG_IDLE_TIMEOUT
  | sshLogLevel => some TNT_CONFIG_SSH_LOG_LEVEL
  | _ => none

/-- The variable that an option sets. -/
def envName : ServerOption → Option Bytes
  | stateDir => some (lit "TNT_STATE_DIR")
  | bind => some (lit "TNT_BIND_ADDR")
  | publicHost => some (lit "TNT_PUBLIC_HOST")
  | option => option.spec.map (·.envName)

def valid (option : ServerOption) (value : Bytes) : Bool :=
  match option with
  | port => (configParseInt value TNT_CONFIG_PORT).isSome
  | stateDir | logCheck | logRecover => value ≠ []
  | bind | publicHost => isConfigToken value
  | option => option.spec.any fun spec => (configParseInt value spec).isSome

def set (option : ServerOption) (value : Bytes) (opts : ServerOptions) : ServerOptions :=
  match option with
  | port => { opts with port := (configParseInt value TNT_CONFIG_PORT).getD opts.port }
  | logCheck => { opts with logCheckPath := some value }
  | logRecover => { opts with logRecoverPath := some value }
  | option =>
    match option.envName with
    | some name => { opts with env := Function.update opts.env name (some value) }
    | none => opts

def ofArg (arg : Bytes) : Option ServerOption := all.find? fun option => option.names.contains arg

end ServerOption

/-- How `main` ends before it does anything. -/
inductive ServerEnd
  | version | help
  /-- `cli_text_option_requires_arg_format` -/
  | requiresArg (option : Bytes)
  /-- `cli_text_invalid_port_format` -/
  | invalidPort (value : Bytes)
  /-- `cli_text_invalid_value_format` -/
  | invalidValue (option value : Bytes)
  /-- `cli_text_unknown_option_format`, and `cli_text_short_usage_format` behind it. -/
  | unknownOption (arg : Bytes)
  deriving DecidableEq

namespace ServerEnd

/-- What is written to stderr. -/
def text (program : Bytes) (lang : UiLang) : ServerEnd → Bytes
  | version | help => []
  | requiresArg option => i18nString "Option requires argument: " "选项需要参数: " lang ++ option ++ [newline]
  | invalidPort value => i18nString "Invalid port: " "端口无效: " lang ++ value ++ [newline]
  | invalidValue option value =>
    match lang with
    | .en => lit "Invalid " ++ option ++ lit ": " ++ value ++ [newline]
    | .zh => option ++ lit " 无效: " ++ value ++ [newline]
  | unknownOption arg => i18nString "Unknown option: " "未知选项: " lang ++ arg ++ [newline] ++
    i18nString "Usage: " "用法: " lang ++ program ++ lit " [options]\n"

def status : ServerEnd → Nat
  | version | help => TNT_EXIT_OK
  | _ => TNT_EXIT_USAGE

end ServerEnd

def serverSyntax : OptionSyntax Bytes ServerOption ServerOptions where
  kind := ServerOption.ofArg
  valid := ServerOption.valid
  set := ServerOption.set

/-- The error of an option: `require_option_arg`, and the checks of `main`. -/
def badOption (option : ServerOption) (name : Bytes) : Option Bytes → ServerEnd
  | none | some [] => .requiresArg name
  | some value => if option = .port then .invalidPort value else .invalidValue name value

/-- `main`, up to what it does with its options. -/
def serverMain (env : Environment) (argv : List Bytes) : Except ServerEnd ServerOptions :=
  match serverSyntax.takeOptions badOption (.start env) argv with
  | .error e => .error e
  | .ok (opts, []) =>
    if opts.logCheckPath.isSome ∧ opts.logRecoverPath.isSome then
      .error (.invalidValue (lit "--log-check") (lit "--log-recover"))
    else .ok opts
  | .ok (_, arg :: _) =>
    if arg = lit "-V" ∨ arg = lit "--version" then .error .version
    else if arg = lit "-h" ∨ arg = lit "--help" then .error .help
    else .error (.unknownOption arg)

/-! ## What is in force -/

/-- The options of `main` are accepted where all are, and the log is not both checked and recovered. -/
theorem serverMain_ok {env : Environment} {argv : List Bytes} {opts : ServerOptions} :
    serverMain env argv = .ok opts ↔ ∃ given : List serverSyntax.Given,
      argv = given.flatMap OptionSyntax.Given.args ∧ opts = OptionSyntax.apply (.start env) given ∧
        ¬ (opts.logCheckPath.isSome = true ∧ opts.logRecoverPath.isSome = true) := by
  unfold serverMain
  constructor
  · intro h
    split at h
    · cases h
    · next opts' htake =>
      obtain ⟨given, hargv, -, hopts⟩ := OptionSyntax.takeOptions_ok.1 htake
      split at h
      · cases h
      · next hlogs =>
        cases h
        exact ⟨given, hargv.trans (List.append_nil _), hopts, hlogs⟩
    · split at h
      · cases h
      split at h <;> cases h
  · rintro ⟨given, rfl, rfl, hlogs⟩
    have htake := OptionSyntax.takeOptions_given badOption (.start env) given (show serverSyntax.Ends [] from nofun)
    rw [List.append_nil] at htake
    rw [htake]
    dsimp only
    rw [if_neg hlogs]

/-- The value of the last option of a kind. -/
def lastValue (given : List serverSyntax.Given) (option : ServerOption) : Option Bytes :=
  (given.filter (·.kind = option)).getLast?.map (·.value)

/-- A value that is accepted reads the same from the environment. -/
theorem envInt_of_parse {value : Bytes} {spec : IntConfigSpec} {n : Int} (h0 : 0 ∉ value)
    (h : configParseInt value spec = some n) {env : Environment} (henv : env spec.envName = some value) :
    configEnvInt env spec = n := by
  unfold configParseInt at h
  rw [Option.ite_none_left_eq_some] at h
  obtain ⟨hne, h⟩ := h
  obtain ⟨b, rest, rfl⟩ := List.exists_cons_of_ne_nil hne
  unfold configEnvInt envInt
  rw [henv, Option.map_some, cstr_of_notMem h0]
  dsimp only
  rcases hval : strtol (b :: rest) with _ | ⟨val, _ | ⟨c, more⟩⟩
  · rw [hval] at h
    cases h
  · rw [hval] at h
    obtain ⟨hrange, h⟩ := Option.ite_none_left_eq_some.1 h
    cases h
    exact if_neg hrange
  · rw [hval] at h
    cases h

theorem envNames_inj : ∀ option other : ServerOption, option.envName = other.envName → option.envName ≠ none →
    option = other := by
  intro option other
  cases option <;> cases other <;> decide +kernel

theorem envName_of_spec {option : ServerOption} {spec : IntConfigSpec} (h : option.spec = some spec) :
    option.envName = some spec.envName := by
  cases option <;> first | (cases h; rfl) | cases h

theorem lastValue_mem {given : List serverSyntax.Given} {option : ServerOption} {value : Bytes}
    (h : lastValue given option = some value) :
    option.valid value = true ∧ value ∈ given.flatMap OptionSyntax.Given.args := by
  obtain ⟨last, hlast, rfl⟩ := Option.map_eq_some_iff.1 h
  obtain ⟨hmem, hkind⟩ := List.mem_filter.1 (List.mem_of_getLast? hlast)
  refine ⟨?_, List.mem_flatMap.2 ⟨last, hmem, List.mem_cons_of_mem _ List.mem_cons_self⟩⟩
  rw [← of_decide_eq_true hkind]
  exact last.valid

theorem set_env {option : ServerOption} {name : Bytes} (h : option.envName = some name) (value : Bytes)
    (opts : ServerOptions) : (option.set value opts).env = Function.update opts.env name (some value) := by
  cases option <;> first | (cases h; rfl) | cases h

theorem set_env_none {option : ServerOption} (h : option.envName = none) (value : Bytes) (opts : ServerOptions) :
    (option.set value opts).env = opts.env := by
  cases option <;> first | rfl | cases h

/-- A variable is what the last of its options says, or what it was. -/
theorem env_last (env : Environment) (given : List serverSyntax.Given) {option : ServerOption} {name : Bytes}
    (h : option.envName = some name) :
    (OptionSyntax.apply (.start env) given : ServerOptions).env name = (lastValue given option).or (env name) := by
  have hlast := OptionSyntax.apply_last (o := serverSyntax) (f := fun opts => opts.env name) (k := option) (g := some)
    (fun opts value _ => ?_) (fun opts other value hother => ?_) (.start env) given
  · rw [hlast, lastValue]
    cases (given.filter fun given => decide (given.kind = option)).getLast? <;> rfl
  · show (option.set value opts).env name = some value
    rw [set_env h, Function.update_self]
  · show (other.set value opts).env name = opts.env name
    rcases hname : other.envName with _ | otherName
    · rw [set_env_none hname]
    · rw [set_env hname, Function.update_of_ne]
      rintro rfl
      exact hother (envNames_inj other option (hname.trans h.symm) (by rw [hname]; exact Option.some_ne_none _))

/-- The port is what the last option for it says, or what the environment does. -/
theorem port_last (env : Environment) (given : List serverSyntax.Given) :
    (lastValue given .port).elim ((OptionSyntax.apply (.start env) given : ServerOptions).port =
        configEnvInt env TNT_CONFIG_PORT)
      fun value => configParseInt value TNT_CONFIG_PORT =
        some (OptionSyntax.apply (.start env) given : ServerOptions).port := by
  have hlast := OptionSyntax.apply_last (o := serverSyntax) (f := ServerOptions.port) (k := .port)
    (g := fun value => (configParseInt value TNT_CONFIG_PORT).getD 0) (fun opts value hvalid => ?_)
    (fun opts other value hother => ?_) (.start env) given
  · rw [hlast]
    cases hvalue : lastValue given .port with
    | none =>
      have hnone := Option.map_eq_none_iff.1 hvalue
      rw [hnone]
      rfl
    | some value =>
      obtain ⟨n, hn⟩ := Option.isSome_iff_exists.1 (lastValue_mem hvalue).1
      obtain ⟨last, hlast, rfl⟩ := Option.map_eq_some_iff.1 hvalue
      rw [hlast, Option.elim_some, Option.map_some, hn]
      rfl
  · obtain ⟨n, hn⟩ := Option.isSome_iff_exists.1 hvalid
    show (configParseInt value TNT_CONFIG_PORT).getD opts.port = (configParseInt value TNT_CONFIG_PORT).getD 0
    rw [hn]
    rfl
  · cases other with
    | port => exact absurd rfl hother
    | _ => rfl

theorem parse_of_valid {option : ServerOption} {spec : IntConfigSpec} (hspec : option.spec = some spec) {value : Bytes}
    (hvalid : option.valid value = true) : ∃ n, configParseInt value spec = some n := by
  have hany : option.spec.any (fun spec => (configParseInt value spec).isSome) = true := by
    cases option <;> first | exact hvalid | cases hspec
  rw [hspec] at hany
  exact Option.isSome_iff_exists.1 hany

/-- An option that is accepted is in force. For every command line that `main` accepts, what is read from the
environment is the value of the last option for it, and never a default in its place, and what it would have been
without that option otherwise; so is the port; and no other variable is changed. -/
theorem options_in_force {env : Environment} {argv : List Bytes} {opts : ServerOptions}
    (hargv : ∀ arg ∈ argv, 0 ∉ arg) (h : serverMain env argv = .ok opts) :
    ∃ given : List serverSyntax.Given, argv = given.flatMap OptionSyntax.Given.args ∧
      (∀ option spec, option.spec = some spec → (lastValue given option).elim
        (configEnvInt opts.env spec = configEnvInt env spec)
        (fun value => configParseInt value spec = some (configEnvInt opts.env spec))) ∧
      (lastValue given .port).elim (opts.port = configEnvInt env TNT_CONFIG_PORT)
        (fun value => configParseInt value TNT_CONFIG_PORT = some opts.port) ∧
      (∀ option name, option.envName = some name → opts.env name = (lastValue given option).or (env name)) ∧
      ∀ name, (∀ option : ServerOption, option.envName ≠ some name) → opts.env name = env name := by
  obtain ⟨given, rfl, rfl, -⟩ := serverMain_ok.1 h
  refine ⟨given, rfl, fun option spec hspec => ?_, ?_, fun option name hname => env_last env given hname,
    fun name hname => ?_⟩
  · have henv := env_last env given (envName_of_spec hspec)
    cases hlast : lastValue given option with
    | none =>
      rw [hlast, Option.none_or] at henv
      show configEnvInt _ spec = configEnvInt env spec
      rw [configEnvInt, envInt, henv]
      rfl
    | some value =>
      obtain ⟨hvalid, hmem⟩ := lastValue_mem hlast
      obtain ⟨n, hn⟩ := parse_of_valid hspec hvalid
      rw [hlast, Option.some_or] at henv
      show configParseInt value spec = _
      rw [hn, envInt_of_parse (hargv value hmem) hn henv]
  · exact port_last env given
  · refine OptionSyntax.apply_induction (P := fun opts : ServerOptions => opts.env name = env name)
      (fun opts option value heq _ => ?_) rfl given
    rcases hoption : option.envName with _ | other
    · exact (congrFun (set_env_none hoption value opts) name).trans heq
    · refine (congrFun (set_env hoption value opts) name).trans ?_
      rw [Function.update_of_ne]
      · exact heq
      · rintro rfl
        exact hname option hoption

/-- The last of two limits is in force, and not the variable. -/
theorem options_in_force_limit :
    let env : Environment := fun name => if name = lit "TNT_MAX_CONNECTIONS" then some (lit "9") else none
    let argv := [lit "--max-connections", lit "2", lit "-p", lit "22", lit "--max-connections", lit " +30"]
    ∃ opts given, serverMain env argv = .ok opts ∧ argv = given.flatMap OptionSyntax.Given.args ∧
      (lastValue given .maxConnections).elim
        (configEnvInt opts.env TNT_CONFIG_MAX_CONNECTIONS = configEnvInt env TNT_CONFIG_MAX_CONNECTIONS)
        (fun value => configParseInt value TNT_CONFIG_MAX_CONNECTIONS =
          some (configEnvInt opts.env TNT_CONFIG_MAX_CONNECTIONS)) ∧
      configEnvInt opts.env TNT_CONFIG_MAX_CONNECTIONS = 30 ∧ opts.port = 22 := by
  intro env argv
  have hargv : ∀ arg ∈ argv, 0 ∉ arg := by decide +kernel
  have hread : (serverMain env argv).toOption.map (fun opts =>
      (configEnvInt opts.env TNT_CONFIG_MAX_CONNECTIONS, opts.port)) = some (30, 22) := by
    decide +kernel
  cases h : serverMain env argv with
  | error e =>
    rw [h] at hread
    cases hread
  | ok opts =>
    rw [h] at hread
    obtain ⟨hlimit, hport⟩ := Prod.mk.inj (Option.some.inj hread)
    obtain ⟨given, hgiven, hsettings, -⟩ := options_in_force hargv h
    exact ⟨opts, given, rfl, hgiven, hsettings .maxConnections _ rfl, hlimit, hport⟩

end Tnt
