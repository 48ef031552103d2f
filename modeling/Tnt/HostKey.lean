import Tnt.Lib.Runs
import Tnt.Lib.TimeFormat
import Tnt.Manifest
import Mathlib.Logic.Function.Basic
/-!
# The host key (`setup_host_key` of `ssh_server.c`, the state paths of `common.c`)

A server loads the host key of its state directory, or generates one where there is none: it writes the key to
a temporary file of its own, and renames that to the name of the key.

Several servers may start on one directory, each system call may fail, and a process may die between any two of
them. `procStep` takes one process through the function, one system call at a time, and `setupHostKey` is any
number of processes over the files they share. A name stands for one file, and a live process has a pid to
itself. libssh writes a key as `fopen` with "wb" and `fwrite` do, and reads the file of
`SSH_BIND_OPTIONS_RSAKEY` at some time after the option is set.
-/
open BaseLib

namespace Tnt

/-! ## Paths of the state directory -/

/-- `tnt_state_dir`, of the variable `TNT_STATE_DIR` -/
def tntStateDir (env : Option Bytes) : Bytes :=
  match env with
  | none | some [] => lit "."
  | some dir => dir

def statePathText (dir filename : Bytes) : Bytes :=
  if dir = lit "/" then lit "/" ++ filename else dir ++ lit "/" ++ filename

def tntStatePath (dir : Bytes) (bufSize : Nat) (filename : Bytes) : Option Bytes :=
  if bufSize = 0 ∨ filename = [] then none
  else if (statePathText dir filename).length < bufSize then some (statePathText dir filename) else none

/-- `HOST_KEY_FILE` -/
def hostKeyFile : Bytes := lit "host_key"

/-- `host_key_path` -/
def hostKeyPath (dir : Bytes) : Bytes := statePathText dir hostKeyFile

/-- `temp_key_file` of the process `pid` -/
def tempKeyFile (dir : Bytes) (pid : Nat) : Bytes := hostKeyPath dir ++ lit ".tmp." ++ decimal pid

theorem tempKeyFile_ne (dir : Bytes) (pid : Nat) : tempKeyFile dir pid ≠ hostKeyPath dir := by
  intro h
  have hlen := congrArg List.length h
  simp only [tempKeyFile, List.length_append] at hlen
  have hdot : (lit ".tmp.").length = 5 := by decide
  omega

theorem decimal_injective : Function.Injective decimal := by
  intro m n h
  rw [← digitsVal_decimal m, h, digitsVal_decimal]

theorem tempKeyFile_inj {dir : Bytes} {p q : Nat} : tempKeyFile dir p = tempKeyFile dir q ↔ p = q :=
  ⟨fun h => decimal_injective (List.append_cancel_left h), fun h => h ▸ rfl⟩

/-! ## Files and processes -/

structure KeyFile where
  bytes : Bytes
  /-- The permission bits of `st_mode`. -/
  mode : Nat
  deriving DecidableEq

/-- Nobody but the owner has a right to it. -/
abbrev KeyFile.Private (f : KeyFile) : Prop := f.mode &&& 0o077 = 0

/-- Where a process is in `setup_host_key`, named by what it is about to do. -/
inductive KeyStage
  | stat
  /-- It saw an empty key. -/
  | unlinkKey
  | fixMode
  | generate
  | exportKey (key : Bytes)
  | chmodTemp (key : Bytes)
  | rename (key : Bytes)
  /-- `rename` failed. -/
  | unlinkTemp
  | setOption
  /-- The option is set and the key not yet read. -/
  | readKey
  /-- The server has this key. -/
  | ready (key : Bytes)
  | failed
  deriving DecidableEq

/-- The call a process makes, and how it ends. -/
inductive KeyCall
  | start
  | stat (ok : Bool)
  | unlink (ok : Bool)
  | chmod (ok : Bool)
  /-- `none` where `generate_rsa_host_key` fails. -/
  | generate (key : Option Bytes)
  /-- `ssh_pki_export_privkey_file`: the file was not opened, or this many bytes went out. -/
  | exportKey (written : Option Nat)
  | rename (ok : Bool)
  | setOption (ok : Bool)
  | readKey (ok : Bool)
  /-- The process ends, wherever it is. -/
  | crash
  deriving DecidableEq

abbrev Files : Type := Bytes → Option KeyFile

/-- Behind `stat`, which found this file. -/
def afterStat : Option KeyFile → KeyStage
  | none => .generate
  | some f =>
    if f.bytes.length = 0 then .unlinkKey
    else if f.bytes.length > 10 * 1024 * 1024 then .failed
    else if f.mode &&& 0o077 ≠ 0 then .fixMode
    else .setOption

/-- The call `chmod(path, 0600)`. -/
def chmod600 (files : Files) (path : Bytes) (ok : Bool) : Files :=
  if ok then Function.update files path ((files path).map ({ · with mode := 0o600 })) else files

def unlink (files : Files) (path : Bytes) (ok : Bool) : Files :=
  if ok then Function.update files path none else files

/-- The mode of a file that `fopen` writes under the umask 0077. -/
def openedMode (files : Files) (path : Bytes) : Nat := (files path).elim 0o600 KeyFile.mode

/-- The next call of the process `pid`; `none` where it makes another one. -/
def procStep (dir : Bytes) (pid : Nat) (files : Files) : Option KeyStage → KeyCall → Option (Files × Option KeyStage)
  | none, .start =>
    some (files, some (if (tntStatePath dir PATH_MAX hostKeyFile).isSome then .stat else .failed))
  | some .stat, .stat ok => some (files, some (afterStat (if ok then files (hostKeyPath dir) else none)))
  -- the result of the call is not looked at
  | some .unlinkKey, .unlink ok => some (unlink files (hostKeyPath dir) ok, some .generate)
  | some .fixMode, .chmod ok => some (chmod600 files (hostKeyPath dir) ok, some .setOption)
  | some .generate, .generate none => some (files, some .failed)
  | some .generate, .generate (some key) =>
    some (files, some (if (tempKeyFile dir pid).length ≥ PATH_MAX then .failed else .exportKey key))
  | some (.exportKey _), .exportKey none => some (files, some .failed)
  | some (.exportKey key), .exportKey (some written) =>
    let path := tempKeyFile dir pid
    some (Function.update files path (some ⟨key.take written, openedMode files path⟩),
      some (if key.length ≤ written then .chmodTemp key else .failed))
  | some (.chmodTemp key), .chmod ok => some (chmod600 files (tempKeyFile dir pid) ok, some (.rename key))
  | some (.rename _), .rename true =>
    (files (tempKeyFile dir pid)).map fun f =>
      (Function.update (Function.update files (tempKeyFile dir pid) none) (hostKeyPath dir) (some f),
        some .setOption)
  | some (.rename _), .rename false => some (files, some .unlinkTemp)
  | some .unlinkTemp, .unlink ok => some (unlink files (tempKeyFile dir pid) ok, some .failed)
  | some .setOption, .setOption ok => some (files, some (if ok then .readKey else .failed))
  | some .readKey, .readKey ok =>
    some (files, some (((if ok then files (hostKeyPath dir) else none).map (.ready ·.bytes)).getD .failed))
  | some _, .crash => some (files, none)
  | _, _ => none

structure KeyWorld where
  files : Files
  /-- The live processes, by pid. -/
  procs : Nat → Option KeyStage

/-- One call of one of the processes. -/
def setupHostKey (dir : Bytes) (w : KeyWorld) (e : Nat × KeyCall) : Option KeyWorld :=
  (procStep dir e.1 w.files (w.procs e.1) e.2).map fun r => ⟨r.1, Function.update w.procs e.1 r.2⟩

/-- What becomes of the key when the process `pid`, at `st`, makes a call. -/
inductive KeyMove (dir : Bytes) (pid : Nat) (files : Files) : Option KeyStage → Option KeyFile → Prop
  | kept (st : Option KeyStage) (f : Option KeyFile) : files (hostKeyPath dir) = f → KeyMove dir pid files st f
  | unlinked : KeyMove dir pid files (some .unlinkKey) none
  | fixed (f : KeyFile) : files (hostKeyPath dir) = some f →
      KeyMove dir pid files (some .fixMode) (some { f with mode := 0o600 })
  | renamed (key : Bytes) (f : KeyFile) : files (tempKeyFile dir pid) = some f →
      KeyMove dir pid files (some (.rename key)) (some f)

variable {dir : Bytes} {pid : Nat} {files files' : Files} {st st' : Option KeyStage} {call : KeyCall}

theorem unlink_of_ne {path other : Bytes} (h : other ≠ path) (ok : Bool) : unlink files path ok other = files other := by
  unfold unlink
  split
  · exact Function.update_of_ne h _ _
  · rfl

theorem chmod600_of_ne {path other : Bytes} (h : other ≠ path) (ok : Bool) :
    chmod600 files path ok other = files other := by
  unfold chmod600
  split
  · exact Function.update_of_ne h _ _
  · rfl

/-- A call leaves the temporary files of the other processes alone, and moves the key as its stage says. -/
theorem procStep_move (h : procStep dir pid files st call = some (files', st')) :
    KeyMove dir pid files st (files' (hostKeyPath dir)) ∧
      ∀ q, q ≠ pid → files' (tempKeyFile dir q) = files (tempKeyFile dir q) := by
  have hother : ∀ q, q ≠ pid → tempKeyFile dir q ≠ tempKeyFile dir pid := fun q hq he => hq (tempKeyFile_inj.1 he)
  have hown : hostKeyPath dir ≠ tempKeyFile dir pid := (tempKeyFile_ne dir pid).symm
  revert h
  fun_cases procStep dir pid files st call <;> intro h
  all_goals try (cases h; exact ⟨.kept _ _ rfl, fun _ _ => rfl⟩)
  case case3 ok =>
    cases h
    refine ⟨?_, fun q _ => unlink_of_ne (tempKeyFile_ne dir q) ok⟩
    cases ok with
    | false => exact .kept _ _ rfl
    | true =>
      rw [unlink, if_pos rfl, Function.update_self]
      exact .unlinked
  case case4 ok =>
    cases h
    refine ⟨?_, fun q _ => chmod600_of_ne (tempKeyFile_ne dir q) ok⟩
    cases ok with
    | false => exact .kept _ _ rfl
    | true =>
      rw [chmod600, if_pos rfl, Function.update_self]
      cases hf : files (hostKeyPath dir) with
      | none => exact .kept _ _ hf
      | some f => exact .fixed f hf
  case case8 key written path =>
    cases h
    refine ⟨?_, fun q hq => Function.update_of_ne (hother q hq) _ _⟩
    rw [Function.update_of_ne hown]
    exact .kept _ _ rfl
  case case9 key ok =>
    cases h
    refine ⟨?_, fun q hq => chmod600_of_ne (hother q hq) ok⟩
    rw [chmod600_of_ne hown]
    exact .kept _ _ rfl
  case case10 key =>
    obtain ⟨f, hf, h⟩ := Option.map_eq_some_iff.1 h
    cases h
    refine ⟨?_, fun q hq => ?_⟩
    · rw [Function.update_self]
      exact .renamed key f hf
    · rw [Function.update_of_ne (tempKeyFile_ne dir q), Function.update_of_ne (hother q hq)]
  case case12 ok =>
    cases h
    refine ⟨?_, fun q hq => unlink_of_ne (hother q hq) ok⟩
    rw [unlink_of_ne hown]
    exact .kept _ _ rfl
  case case16 => cases h

/-! ## The key is never a part of one -/

section Whole
variable {made : Bytes → Prop} {orig : Option KeyFile}

/-- The key of the directory as the run began, or one that was generated since. -/
def WholeKey (made : Bytes → Prop) (orig : Option KeyFile) (key : Bytes) : Prop :=
  (∃ f ∈ orig, key = f.bytes) ∨ made key

/-- What a process relies on at its stage. -/
def StageOk (dir : Bytes) (made : Bytes → Prop) (orig : Option KeyFile) (files : Files) (pid : Nat) :
    Option KeyStage → Prop
  | some (.exportKey key) => made key
  | some (.chmodTemp key) | some (.rename key) => made key ∧ ∃ f ∈ files (tempKeyFile dir pid), f.bytes = key
  | some .fixMode | some .setOption | some .readKey => ∀ f ∈ files (hostKeyPath dir), f.bytes ≠ []
  | some (.ready key) => WholeKey made orig key ∧ key ≠ []
  | _ => True

structure KeyInv (dir : Bytes) (made : Bytes → Prop) (orig : Option KeyFile) (w : KeyWorld) : Prop where
  key : ∀ f ∈ w.files (hostKeyPath dir), WholeKey made orig f.bytes
  stages : ∀ p, StageOk dir made orig w.files p (w.procs p)

/-- A new key file has the text of the old one, or is a generated key. -/
theorem KeyMove.file {g : Option KeyFile} (h : KeyMove dir pid files st g) (hst : StageOk dir made orig files pid st) :
    ∀ f ∈ g, (∃ f1 ∈ files (hostKeyPath dir), f.bytes = f1.bytes) ∨ made f.bytes := by
  intro f hf
  cases h with
  | kept _ _ hkept => exact .inl ⟨f, hkept ▸ hf, rfl⟩
  | unlinked => cases hf
  | fixed f1 hf1 =>
    cases hf
    exact .inl ⟨f1, hf1, rfl⟩
  | renamed key f1 hf1 =>
    cases hf
    obtain ⟨hmade, f2, hf2, rfl⟩ := hst
    cases hf1.symm.trans hf2
    exact .inr hmade

/-- The stage of a process that makes no call is as good as before. -/
theorem StageOk.frame (hmade : ∀ key, made key → key ≠ []) {q : Nat} {sq : Option KeyStage}
    (hq : StageOk dir made orig files q sq) (htemp : files' (tempKeyFile dir q) = files (tempKeyFile dir q))
    (hkey : ∀ f ∈ files' (hostKeyPath dir), (∃ f1 ∈ files (hostKeyPath dir), f.bytes = f1.bytes) ∨ made f.bytes) :
    StageOk dir made orig files' q sq := by
  have hfull : (∀ f ∈ files (hostKeyPath dir), f.bytes ≠ []) → ∀ f ∈ files' (hostKeyPath dir), f.bytes ≠ [] := by
    intro hne f hf
    rcases hkey f hf with ⟨f1, hf1, hb⟩ | hm
    · exact hb ▸ hne f1 hf1
    · exact hmade _ hm
  unfold StageOk at hq ⊢
  split at hq <;> first | exact hfull hq | exact htemp ▸ hq | exact hq

theorem procStep_stage (hmade : ∀ key, call = .generate (some key) → made key)
    (hne : ∀ key, made key → key ≠ [])
    (h : procStep dir pid files st call = some (files', st')) (hst : StageOk dir made orig files pid st)
    (hkey : ∀ f ∈ files (hostKeyPath dir), WholeKey made orig f.bytes) : StageOk dir made orig files' pid st' := by
  have hown := tempKeyFile_ne dir pid
  revert h
  fun_cases procStep dir pid files st call <;> intro h
  case case16 => cases h
  case case10 key =>
    obtain ⟨f, hf, h⟩ := Option.map_eq_some_iff.1 h
    cases h
    obtain ⟨hm, f1, hf1, rfl⟩ := hst
    cases hf.symm.trans hf1
    intro f2 hf2
    rw [Function.update_self] at hf2
    cases hf2
    exact hne _ hm
  all_goals cases h
  case case1 => split <;> trivial
  case case2 ok =>
    cases ok with
    | false => trivial
    | true =>
      rw [if_pos rfl]
      cases hf : files (hostKeyPath dir) with
      | none => trivial
      | some f =>
        have hbytes (hlen : ¬ f.bytes.length = 0) : ∀ f1 ∈ files (hostKeyPath dir), f1.bytes ≠ [] := by
          intro f1 hf1 hnil
          cases hf.symm.trans hf1
          exact hlen (by rw [hnil, List.length_nil])
        unfold afterStat
        dsimp only
        split_ifs with hlen hbig hmode
        · trivial
        · trivial
        · exact hbytes hlen
        · exact hbytes hlen
  case case3 => trivial
  case case4 ok =>
    intro f hf
    unfold chmod600 at hf
    split at hf
    · rw [Function.update_self] at hf
      obtain ⟨f1, hf1, rfl⟩ := Option.map_eq_some_iff.1 hf
      exact hst f1 hf1
    · exact hst f hf
  case case5 => trivial
  case case6 key =>
    split
    · trivial
    · exact hmade key rfl
  case case7 => trivial
  case case8 key written path =>
    split
    · rename_i hall
      refine ⟨hst, ⟨key.take written, openedMode files (tempKeyFile dir pid)⟩, ?_, ?_⟩
      · rw [Function.update_self]
        rfl
      · exact List.take_of_length_le hall
    · trivial
  case case9 key ok =>
    obtain ⟨hm, f, hf, rfl⟩ := hst
    refine ⟨hm, ?_⟩
    unfold chmod600
    split
    · refine ⟨{ f with mode := 0o600 }, ?_, rfl⟩
      rw [Function.update_self, Option.mem_def.1 hf]
      rfl
    · exact ⟨f, hf, rfl⟩
  case case11 => trivial
  case case12 => trivial
  case case13 ok => cases ok <;> first | exact hst | trivial
  case case14 ok =>
    cases ok with
    | false => trivial
    | true =>
      rw [if_pos rfl]
      cases hf : files (hostKeyPath dir) with
      | none => trivial
      | some f => exact ⟨hkey f hf, hst f hf⟩
  case case15 => trivial

theorem KeyInv.step (hne : ∀ key, made key → key ≠ []) {w w' : KeyWorld} {e : Nat × KeyCall}
    (hmade : ∀ key, e.2 = .generate (some key) → made key) (hi : KeyInv dir made orig w)
    (h : setupHostKey dir w e = some w') : KeyInv dir made orig w' := by
  obtain ⟨⟨files', st'⟩, hstep, rfl⟩ := Option.map_eq_some_iff.1 h
  obtain ⟨hmove, hother⟩ := procStep_move hstep
  have hfile := hmove.file (hi.stages e.1)
  refine ⟨fun f hf => ?_, fun p => ?_⟩
  · rcases hfile f hf with ⟨f1, hf1, hb⟩ | hm
    · exact hb ▸ hi.key f1 hf1
    · exact .inr hm
  · dsimp only
    by_cases hp : p = e.1
    · subst hp
      rw [Function.update_self]
      exact procStep_stage hmade hne hstep (hi.stages _) hi.key
    · rw [Function.update_of_ne hp]
      exact (hi.stages p).frame hne (hother p hp) hfile

end Whole

/-! ## The rights on a key -/

theorem chmod600_private {path : Bytes} (ok : Bool) (h : ∀ f ∈ files path, f.Private) :
    ∀ f ∈ chmod600 files path ok path, f.Private := by
  unfold chmod600
  split
  · intro f hf
    rw [Function.update_self] at hf
    obtain ⟨f1, -, rfl⟩ := Option.map_eq_some_iff.1 hf
    exact (by decide : 0o600 &&& 0o077 = 0)
  · exact h

theorem openedMode_private {path : Bytes} (h : ∀ f ∈ files path, f.Private) :
    openedMode files path &&& 0o077 = 0 := by
  unfold openedMode
  cases hf : files path with
  | none => decide
  | some f => exact h f hf

theorem procStep_temps (h : procStep dir pid files st call = some (files', st'))
    (htemp : ∀ f ∈ files (tempKeyFile dir pid), f.Private) : ∀ f ∈ files' (tempKeyFile dir pid), f.Private := by
  have hown := tempKeyFile_ne dir pid
  revert h
  fun_cases procStep dir pid files st call <;> intro h
  all_goals try (cases h; exact htemp)
  case case3 ok =>
    cases h
    rw [unlink_of_ne hown]
    exact htemp
  case case4 ok =>
    cases h
    rw [chmod600_of_ne hown]
    exact htemp
  case case8 key written path =>
    cases h
    intro f hf
    rw [Function.update_self] at hf
    cases hf
    exact openedMode_private htemp
  case case9 key ok =>
    cases h
    exact chmod600_private ok htemp
  case case10 key =>
    obtain ⟨f, hf, h⟩ := Option.map_eq_some_iff.1 h
    cases h
    intro f1 hf1
    rw [Function.update_of_ne hown, Function.update_self] at hf1
    cases hf1
  case case12 ok =>
    cases h
    intro f hf
    cases ok with
    | false => exact htemp f hf
    | true =>
      rw [unlink, if_pos rfl, Function.update_self] at hf
      cases hf
  case case16 => cases h

theorem KeyMove.private {g : Option KeyFile} (h : KeyMove dir pid files st g)
    (htemp : ∀ f ∈ files (tempKeyFile dir pid), f.Private) : ∀ f ∈ g, f ∈ files (hostKeyPath dir) ∨ f.Private := by
  intro f hf
  cases h with
  | kept _ _ hkept => exact .inl (hkept ▸ hf)
  | unlinked => cases hf
  | fixed f1 =>
    cases hf
    exact .inr (by decide : 0o600 &&& 0o077 = 0)
  | renamed key f1 hf1 =>
    cases hf
    exact .inr (htemp f hf1)

/-- The key is the file of the beginning or a private one, and so are the temporary files. -/
structure PrivateInv (dir : Bytes) (orig : Option KeyFile) (w : KeyWorld) : Prop where
  key : ∀ f ∈ w.files (hostKeyPath dir), f ∈ orig ∨ f.Private
  temps : ∀ p, ∀ f ∈ w.files (tempKeyFile dir p), f.Private

theorem PrivateInv.step {orig : Option KeyFile} {w w' : KeyWorld} {e : Nat × KeyCall} (hi : PrivateInv dir orig w)
    (h : setupHostKey dir w e = some w') : PrivateInv dir orig w' := by
  obtain ⟨⟨files', st'⟩, hstep, rfl⟩ := Option.map_eq_some_iff.1 h
  obtain ⟨hmove, hother⟩ := procStep_move hstep
  refine ⟨fun f hf => ?_, fun p => ?_⟩
  · exact (hmove.private (hi.temps e.1) f hf).elim (hi.key f) .inr
  · by_cases hp : p = e.1
    · subst hp
      exact procStep_temps hstep (hi.temps _)
    · intro f hf
      exact hi.temps p f (hother p hp ▸ hf)

/-- A directory with no key, where no server runs. -/
def KeyWorld.fresh : KeyWorld := ⟨fun _ => none, fun _ => none⟩

/-- Behind a run all of whose calls can happen. -/
def KeyWorld.behind (dir : Bytes) (w : KeyWorld) (es : List (Nat × KeyCall)) : KeyWorld :=
  (exec (setupHostKey dir) w es).getD w

/-- A process at this stage will not replace the key, and if it is up its key is `key`. -/
def KeepsKey (key : Bytes) : Option KeyStage → Prop
  | some (.ready k) => k = key
  | some .unlinkKey | some .generate | some (.exportKey _) | some (.chmodTemp _) | some (.rename _) => False
  | _ => True

structure Settled (dir key : Bytes) (w : KeyWorld) : Prop where
  file : ∃ f ∈ w.files (hostKeyPath dir), f.bytes = key
  procs : ∀ p, KeepsKey key (w.procs p)

theorem KeyMove.keeps {key : Bytes} {g : Option KeyFile} (h : KeyMove dir pid files st g) (hst : KeepsKey key st)
    (hfile : ∃ f ∈ files (hostKeyPath dir), f.bytes = key) : ∃ f ∈ g, f.bytes = key := by
  obtain ⟨f, hf, hkey⟩ := hfile
  cases h with
  | kept _ _ hkept => exact ⟨f, hkept ▸ hf, hkey⟩
  | unlinked => exact hst.elim
  | fixed f1 hf1 =>
    cases hf.symm.trans hf1
    exact ⟨_, rfl, hkey⟩
  | renamed => exact hst.elim

theorem procStep_keeps {key : Bytes} (hne : key ≠ []) (h : procStep dir pid files st call = some (files', st'))
    (hcall : call ≠ .stat false) (hst : KeepsKey key st) (hfile : ∃ f ∈ files (hostKeyPath dir), f.bytes = key) :
    KeepsKey key st' := by
  obtain ⟨f, hf, hkey⟩ := hfile
  revert h
  fun_cases procStep dir pid files st call <;> intro h
  case case16 => cases h
  case case10 => exact hst.elim
  all_goals cases h
  case case1 => split <;> trivial
  case case2 ok =>
    cases ok with
    | false => exact absurd rfl hcall
    | true =>
      rw [if_pos rfl, Option.mem_def.1 hf, afterStat, if_neg]
      · split_ifs <;> trivial
      · rwa [List.length_eq_zero_iff, hkey]
  case case13 ok => cases ok <;> trivial
  case case14 ok =>
    cases ok with
    | false => trivial
    | true =>
      rw [if_pos rfl, Option.mem_def.1 hf]
      exact hkey
  all_goals trivial

theorem Settled.step {key : Bytes} (hne : key ≠ []) {w w' : KeyWorld} {e : Nat × KeyCall}
    (hcall : e.2 ≠ .stat false) (hs : Settled dir key w) (h : setupHostKey dir w e = some w') :
    Settled dir key w' := by
  obtain ⟨⟨files', st'⟩, hstep, rfl⟩ := Option.map_eq_some_iff.1 h
  refine ⟨(procStep_move hstep).1.keeps (hs.procs e.1) hs.file, fun p => ?_⟩
  dsimp only
  by_cases hp : p = e.1
  · rw [hp, Function.update_self]
    exact procStep_keeps hne hstep hcall (hs.procs e.1) hs.file
  · rw [Function.update_of_ne hp]
    exact hs.procs p

/-- A process on its own that comes up has the key of the directory. -/
structure Alone (dir : Bytes) (pid : Nat) (w : KeyWorld) : Prop where
  others : ∀ q, q ≠ pid → w.procs q = none
  loaded : ∀ key, w.procs pid = some (.ready key) → ∃ f ∈ w.files (hostKeyPath dir), f.bytes = key

theorem procStep_loaded {key : Bytes} (h : procStep dir pid files st call = some (files', some (.ready key))) :
    ∃ f ∈ files' (hostKeyPath dir), f.bytes = key := by
  revert h
  fun_cases procStep dir pid files st call <;> intro h
  case case14 ok =>
    cases ok with
    | false => cases h
    | true =>
      rw [if_pos rfl] at h
      cases hf : files (hostKeyPath dir) with
      | none =>
        rw [hf] at h
        cases h
      | some f =>
        rw [hf] at h
        cases h
        exact ⟨f, hf, rfl⟩
  case case10 =>
    obtain ⟨f, -, h⟩ := Option.map_eq_some_iff.1 h
    cases h
  case case2 ok =>
    have hst : some (afterStat _) = some (.ready key) := congrArg Prod.snd (Option.some.inj h)
    unfold afterStat at hst
    split at hst
    · cases hst
    · split_ifs at hst <;> cases hst
  case case1 | case6 | case8 | case13 => split at h <;> cases h
  all_goals cases h

theorem Alone.step {w w' : KeyWorld} {e : Nat × KeyCall} (he : e.1 = pid) (ha : Alone dir pid w)
    (h : setupHostKey dir w e = some w') : Alone dir pid w' := by
  subst he
  obtain ⟨⟨files', st'⟩, hstep, rfl⟩ := Option.map_eq_some_iff.1 h
  refine ⟨fun q hq => ?_, fun key hkey => ?_⟩
  · exact (Function.update_of_ne hq _ _).trans (ha.others q hq)
  · dsimp only at hkey
    rw [Function.update_self] at hkey
    exact procStep_loaded (hkey ▸ hstep)

end Tnt
