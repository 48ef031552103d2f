import Tnt.Lib.Runs
import Tnt.Lib.Ledger
import Tnt.Manifest
import Mathlib.Logic.Function.Basic
/-!
# The processes of the modules (`module_runtime.c`)

`tnt_module_runtime_init` starts a process for each module of `TNT_MODULE_PATHS`, with two pipes to it; a module
that misbehaves is closed by the worker, and the shutdown closes those that are left.

`hostStep` takes one thread through one system call, which may fail where a call can; meanwhile the processes end
when they like, and the rest of the server opens and closes descriptors of its own. `MainAt` is where the thread
of `main` is, which also shuts the runtime down, and `WorkerSpot` where that of `module_worker_main` is. What the
worker reads and writes is in `runtimeStep`.
-/
open BaseLib

namespace Tnt

def TNT_MAX_MODULES : Nat := 8
def TNT_MODULE_STOP_GRACE_MS : Nat := 500

/-! ## Descriptors and processes -/

/-- What a descriptor is open on. -/
inductive FdUse
  /-- An end of the pipe that the runtime made as its `id`th. -/
  | pipe (id : Nat) (write : Bool)
  /-- A socket, a file, the terminal. -/
  | other
  deriving DecidableEq

def FdUse.isPipe : FdUse → Bool
  | .pipe _ _ => true
  | .other => false

abbrev FdTable : Type := Nat → Option FdUse

structure Child where
  /-- It has not ended. -/
  alive : Bool
  /-- What it has open as it becomes the module. -/
  fds : FdTable

structure Machine where
  fds : FdTable
  /-- The processes of the modules, until they are waited for. -/
  children : Nat → Option Child
  /-- How many pipes were made. -/
  pipes : Nat
  /-- Calls of the runtime on a descriptor or a process that is not its own. -/
  strays : Nat

namespace Machine

variable (m : Machine)

/-- The runtime has the descriptor open. -/
def Holds (fd : Nat) : Prop := (m.fds fd).any FdUse.isPipe

instance (fd : Nat) : Decidable (m.Holds fd) := inferInstanceAs (Decidable (_ = true))

/-- The process was started and not waited for. -/
def Runs (pid : Nat) : Prop := (m.children pid).isSome

instance (pid : Nat) : Decidable (m.Runs pid) := inferInstanceAs (Decidable (_ = true))

def close (fd : Nat) : Machine :=
  { m with fds := Function.update m.fds fd none, strays := m.strays + if m.Holds fd then 0 else 1 }

/-- `pipe`, which gave `r` and `w`. -/
def pipe (r w : Nat) : Machine :=
  { m with
    fds := Function.update (Function.update m.fds r (some (.pipe m.pipes false))) w (some (.pipe m.pipes true))
    pipes := m.pipes + 1 }

/-- `kill`; what it does to the process, the process does. -/
def kill (pid : Nat) : Machine := { m with strays := m.strays + if m.Runs pid then 0 else 1 }

/-- `waitpid`, where the process has ended. -/
def reap (pid : Nat) : Machine := { m with children := Function.update m.children pid none }

end Machine

/-! ## The child, from `fork` to `execl` -/

/-- The bound of the loop of `close_inherited_fds`. -/
def closeLimit (openMax : Int) : Nat := if openMax < 0 ∨ openMax > 65536 then 1024 else openMax.toNat

/-- `close` for each `fd` from `lo` on, `n` of them. -/
def closeRange (fds : FdTable) (lo : Nat) : Nat → FdTable
  | 0 => fds
  | n + 1 => closeRange (Function.update fds lo none) (lo + 1) n

def closeInheritedFds (openMax : Int) (fds : FdTable) : FdTable := closeRange fds 3 (closeLimit openMax - 3)

/-- What the child of `start_module_process` has open as it calls `execl`. -/
def childFds (openMax : Int) (fds : FdTable) (inR inW outR outW : Nat) : FdTable :=
  let fds := Function.update (Function.update fds inW none) outR none
  let fds := Function.update fds 0 (fds inR)
  let fds := Function.update fds 1 (fds outW)
  closeInheritedFds openMax (Function.update (Function.update fds inR none) outW none)

/-! ## A module -/

/-- The descriptors and the process of a `module_process_t`; `none` is -1. -/
structure ModuleSlot where
  pid : Option Nat
  stdinFd : Option Nat
  stdoutFd : Option Nat
  active : Bool
  deriving DecidableEq

namespace ModuleSlot

def fds (s : ModuleSlot) : List Nat := s.stdinFd.toList ++ s.stdoutFd.toList

def pids (s : ModuleSlot) : List Nat := s.pid.toList

end ModuleSlot

/-- Where `close_module_process` is. -/
inductive CloseSpot
  | check
  | stdin
  | stdout
  | kill
  /-- In the first loop of `reap_module_process`, after so many milliseconds. -/
  | poll (waited : Nat)
  /-- In its second loop. -/
  | wait
  | finish
  deriving DecidableEq

/-- The next call of `close_module_process`, and where it is then; `none` at its end. Nothing happens in `waitpid`
before the process has ended. -/
def closeStep (m : Machine) (s : ModuleSlot) : CloseSpot → Option (Machine × ModuleSlot × Option CloseSpot)
  | .check => some (m, s, if s.active then some .stdin else none)
  | .stdin =>
    match s.stdinFd with
    | some fd => some (m.close fd, { s with stdinFd := none }, some .stdout)
    | none => some (m, s, some .stdout)
  | .stdout =>
    match s.stdoutFd with
    | some fd => some (m.close fd, { s with stdoutFd := none }, some .kill)
    | none => some (m, s, some .kill)
  | .kill =>
    match s.pid with
    | some pid => some (m.kill pid, s, some (.poll 0))
    | none => some (m, s, some .finish)
  | .poll waited =>
    match s.pid with
    | none => none
    | some pid =>
      match m.children pid with
      -- waitpid fails, in both loops
      | none => some (m, { s with pid := none }, some .finish)
      | some child =>
        if child.alive then
          if waited ≥ TNT_MODULE_STOP_GRACE_MS then some (m.kill pid, s, some .wait)
          else some (m, s, some (.poll (waited + 10)))
        else some (m.reap pid, { s with pid := none }, some .finish)
  | .wait =>
    match s.pid with
    | none => none
    | some pid =>
      match m.children pid with
      | none => some (m, { s with pid := none }, some .finish)
      | some child => if child.alive then none else some (m.reap pid, { s with pid := none }, some .finish)
  | .finish => some (m, { s with active := false }, none)

/-! ## The threads -/

/-- Where the thread is that calls `tnt_module_runtime_init` and `tnt_module_runtime_shutdown`. The slot behind the
first `g_module_count` is its own. -/
inductive MainAt
  /-- Before the init, or behind a shutdown. -/
  | down
  /-- In `load_modules_from_env`, at these tokens. -/
  | token (dirs : List Bytes)
  | inPipe (dirs : List Bytes)
  | outPipe (inR inW : Nat) (dirs : List Bytes)
  | fork (inR inW outR outW : Nat) (dirs : List Bytes)
  /-- Closing what it opened for a process that it could not start. -/
  | undo (fds : List Nat) (dirs : List Bytes)
  /-- The parent, closing the ends of the child. -/
  | parent (fds : List Nat) (slot : ModuleSlot) (dirs : List Bytes)
  | handshake (slot : ModuleSlot) (dirs : List Bytes)
  | abandon (slot : ModuleSlot) (spot : CloseSpot) (dirs : List Bytes)
  /-- At `pthread_create`. -/
  | create
  /-- The init has returned. -/
  | up
  | join
  /-- Closing the module at `i`, in the shutdown or where `pthread_create` has failed. -/
  | closeAll (i : Nat) (spot : CloseSpot)

/-- Where the thread of the worker is. -/
inductive WorkerSpot
  | absent
  | check
  | dequeue
  /-- At the module at `i`, with an event. -/
  | deliver (i : Nat)
  /-- In `close_module_process` for it. -/
  | close (i : Nat) (spot : CloseSpot)
  | exited
  deriving DecidableEq

structure ModuleHost where
  machine : Machine
  /-- `g_modules`, as far as `g_module_count`. -/
  modules : List ModuleSlot
  /-- `g_running` -/
  running : Bool
  main : MainAt
  worker : WorkerSpot

/-- What a call comes to. -/
inductive CallResult
  | done
  | failed
  | pipe (r w : Nat)
  | pid (pid : Nat)
  deriving DecidableEq

inductive HostEvent
  /-- `tnt_module_runtime_init` begins, with `TNT_MODULE_PATHS`. -/
  | init (paths : Option Bytes)
  /-- The next call of the thread of `main`. -/
  | main (result : CallResult)
  /-- `tnt_module_runtime_shutdown` begins. -/
  | stop
  /-- The next call of the worker: where it may go two ways, whether there is an event, or the module is kept. -/
  | worker (ok : Bool)
  /-- The process of a module ends. -/
  | exit (pid : Nat)
  /-- The rest of the server opens and closes descriptors. -/
  | openFd (fd : Nat)
  | closeFd (fd : Nat)

structure HostConfig where
  /-- What `fopen` finds. -/
  files : Bytes → Option Bytes
  /-- `sysconf(_SC_OPEN_MAX)` -/
  openMax : Int

/-- The paths of `load_modules_from_env`; `none` where it returns -1. -/
def modulePaths (paths : Option Bytes) : Option (List Bytes) :=
  match paths with
  | none => some []
  | some paths => if paths.length ≥ 4096 then none else some ((paths.splitOn 0x3A).filter (· ≠ []))

namespace ModuleHost

/-- At the head of the loop of `load_modules_from_env`. -/
def nextToken (cfg : HostConfig) (w : ModuleHost) (dirs : List Bytes) : ModuleHost :=
  match (if w.modules.length < TNT_MAX_MODULES then dirs else []) with
  | [] => if w.modules.length = 0 then { w with main := .up } else { w with running := true, main := .create }
  | dir :: rest =>
    { w with main := if (moduleManifestLoad cfg.files dir).isSome then .inPipe rest else .token rest }

/-- A descriptor that the system can give out. -/
def Free (cfg : HostConfig) (w : ModuleHost) (fd : Nat) : Prop :=
  w.machine.fds fd = none ∧ (0 ≤ cfg.openMax → (fd : Int) < cfg.openMax)

instance (cfg : HostConfig) (w : ModuleHost) (fd : Nat) : Decidable (w.Free cfg fd) :=
  inferInstanceAs (Decidable (_ ∧ _))

/-- A call of the thread of `main`. -/
def mainStep (cfg : HostConfig) (w : ModuleHost) (result : CallResult) : Option ModuleHost :=
  match w.main, result with
  | .token dirs, .done => some (w.nextToken cfg dirs)
  | .inPipe dirs, .failed => some { w with main := .token dirs }
  | .inPipe dirs, .pipe r wr =>
    if w.Free cfg r ∧ w.Free cfg wr ∧ r ≠ wr then
      some { w with machine := w.machine.pipe r wr, main := .outPipe r wr dirs }
    else none
  | .outPipe inR inW dirs, .failed => some { w with main := .undo [inR, inW] dirs }
  | .outPipe inR inW dirs, .pipe r wr =>
    if w.Free cfg r ∧ w.Free cfg wr ∧ r ≠ wr then
      some { w with machine := w.machine.pipe r wr, main := .fork inR inW r wr dirs }
    else none
  | .fork inR inW outR outW dirs, .failed => some { w with main := .undo [inR, inW, outR, outW] dirs }
  | .fork inR inW outR outW dirs, .pid pid =>
    if w.machine.Runs pid then none
    else
      let child := ⟨true, childFds cfg.openMax w.machine.fds inR inW outR outW⟩
      some { w with
        machine := { w.machine with children := Function.update w.machine.children pid (some child) }
        main := .parent [inR, outW] ⟨some pid, some inW, some outR, true⟩ dirs }
  | .undo [] dirs, .done => some { w with main := .token dirs }
  | .undo (fd :: fds) dirs, .done => some { w with machine := w.machine.close fd, main := .undo fds dirs }
  | .parent [] slot dirs, .done => some { w with main := .handshake slot dirs }
  | .parent (fd :: fds) slot dirs, .done => some { w with machine := w.machine.close fd, main := .parent fds slot dirs }
  | .handshake slot dirs, .done => some { w with modules := w.modules ++ [slot], main := .token dirs }
  | .handshake slot dirs, .failed => some { w with main := .abandon slot .check dirs }
  | .abandon slot spot dirs, .done =>
    (closeStep w.machine slot spot).map fun (machine, slot, next) =>
      { w with machine, main := next.elim (.token dirs) (.abandon slot · dirs) }
  | .create, .done => some { w with main := .up, worker := .check }
  | .create, .failed => some { w with running := false, main := .closeAll 0 .check }
  | .join, .done =>
    if w.worker = .absent ∨ w.worker = .exited then some { w with worker := .absent, main := .closeAll 0 .check }
    else none
  | .closeAll i spot, .done =>
    match w.modules[i]? with
    | none => some { w with modules := [], main := .down }
    | some slot =>
      (closeStep w.machine slot spot).map fun (machine, slot, next) =>
        { w with machine, modules := w.modules.set i slot
                 main := next.elim (.closeAll (i + 1) .check) (.closeAll i) }
  | _, _ => none

/-- A call of the worker. -/
def workerStep (w : ModuleHost) (ok : Bool) : Option ModuleHost :=
  match w.worker with
  | .check => some { w with worker := if w.running then .dequeue else .exited }
  | .dequeue => some { w with worker := if ok then .deliver 0 else .check }
  | .deliver i =>
    match w.modules[i]? with
    | none => some { w with worker := .check }
    | some slot => some { w with worker := if slot.active ∧ !ok then .close i .check else .deliver (i + 1) }
  | .close i spot =>
    match w.modules[i]? with
    | none => none
    | some slot =>
      (closeStep w.machine slot spot).map fun (machine, slot, next) =>
        { w with machine, modules := w.modules.set i slot
                 worker := next.elim (.deliver (i + 1)) (.close i) }
  | _ => none

end ModuleHost

/-- One call of one thread, or something that happens outside of the runtime. -/
def hostStep (cfg : HostConfig) (w : ModuleHost) : HostEvent → Option ModuleHost
  | .init paths =>
    match w.main with
    | .down =>
      match modulePaths paths with
      | none => some { w with modules := [], running := false }
      | some dirs => some { w with modules := [], running := false, main := .token dirs }
    | _ => none
  | .main result => w.mainStep cfg result
  | .stop =>
    match w.main with
    | .up => some { w with running := false, main := .join }
    | _ => none
  | .worker ok => w.workerStep ok
  | .exit pid =>
    (w.machine.children pid).map fun child =>
      { w with machine.children := Function.update w.machine.children pid (some { child with alive := false }) }
  | .openFd fd =>
    if w.Free cfg fd then some { w with machine.fds := Function.update w.machine.fds fd (some .other) } else none
  | .closeFd fd =>
    -- the server leaves its standard streams open
    if w.machine.fds fd = some .other ∧ 3 ≤ fd then some { w with machine.fds := Function.update w.machine.fds fd none }
    else none

/-- Before the init, with the standard streams open. -/
def ModuleHost.start : ModuleHost :=
  ⟨⟨fun fd => if fd < 3 then some .other else none, fun _ => none, 0, 0⟩, [], false, .down, .absent⟩

/-! ## The descriptors and the processes are accounted for -/

/-- What the runtime has of the system is what its variables name, each once; it never took another's for its own. -/
structure Accounted (m : Machine) (fds pids : List Nat) : Prop where
  fds : Balanced m.Holds fds
  pids : Balanced m.Runs pids
  strays : m.strays = 0

namespace Accounted

variable {m : Machine} {fds fds' pids pids' post : List Nat} {fd pid : Nat}

theorem perm (h : Accounted m fds pids) (hf : fds.Perm fds') (hp : pids.Perm pids') : Accounted m fds' pids' :=
  ⟨h.fds.perm hf, h.pids.perm hp, h.strays⟩

theorem close (pre : List Nat) (h : Accounted m (pre ++ fd :: post) pids) :
    Accounted (m.close fd) (pre ++ post) pids := by
  refine ⟨h.fds.give_mid fun a => ?_, h.pids, ?_⟩
  · unfold Machine.Holds Machine.close
    dsimp only
    by_cases ha : a = fd
    · simp [ha]
    · rw [Function.update_of_ne ha]
      simp [ha]
  · have hheld : m.Holds fd := h.fds.used_of_mem (List.mem_append_right _ List.mem_cons_self)
    rw [Machine.close, if_pos hheld, h.strays]

theorem pipe {r w : Nat} (h : Accounted m fds pids) (hr : m.fds r = none) (hw : m.fds w = none) (hne : r ≠ w) :
    Accounted (m.pipe r w) (r :: w :: fds) pids := by
  have hfree : ∀ fd, m.fds fd = none → ¬ m.Holds fd := by
    intro fd hfd hheld
    rw [Machine.Holds, hfd] at hheld
    cases hheld
  let m1 : Machine := { m with fds := Function.update m.fds w (some (.pipe m.pipes true)) }
  have h1 : Balanced m1.Holds (w :: fds) := h.fds.take (hfree w hw) fun a => by
    unfold Machine.Holds
    by_cases ha : a = w
    · simp [m1, ha, FdUse.isPipe]
    · simp [m1, ha]
  have hr1 : ¬ m1.Holds r := by
    have hsame : m1.fds r = m.fds r := Function.update_of_ne hne _ _
    rw [Machine.Holds, hsame]
    exact hfree r hr
  refine ⟨h1.take hr1 fun a => ?_, h.pids, h.strays⟩
  unfold Machine.Holds Machine.pipe
  by_cases ha : a = w
  · simp [m1, ha, FdUse.isPipe]
  · by_cases hb : a = r
    · simp [m1, hb, hne, FdUse.isPipe]
    · simp [m1, ha, hb]

theorem kill (h : Accounted m fds pids) (hp : pid ∈ pids) : Accounted (m.kill pid) fds pids := by
  refine ⟨h.fds, h.pids, ?_⟩
  rw [Machine.kill, if_pos (h.pids.used_of_mem hp), h.strays]

theorem reap (pre : List Nat) (h : Accounted m fds (pre ++ pid :: post)) :
    Accounted (m.reap pid) fds (pre ++ post) := by
  refine ⟨h.fds, h.pids.give_mid fun a => ?_, h.strays⟩
  unfold Machine.Runs Machine.reap
  by_cases ha : a = pid
  · simp [ha]
  · simp [ha]

theorem fork (h : Accounted m fds pids) (hp : ¬ m.Runs pid) (child : Child) :
    Accounted { m with children := Function.update m.children pid (some child) } fds (pid :: pids) := by
  refine ⟨h.fds, h.pids.take hp fun a => ?_, h.strays⟩
  unfold Machine.Runs
  by_cases ha : a = pid
  · simp [ha]
  · simp [ha]

end Accounted

/-- A module that has nothing of the system. -/
structure ModuleSlot.Clear (s : ModuleSlot) : Prop where
  pid : s.pid = none
  stdinFd : s.stdinFd = none
  stdoutFd : s.stdoutFd = none

theorem ModuleSlot.Clear.fds {s : ModuleSlot} (h : s.Clear) : s.fds = [] := by
  rw [ModuleSlot.fds, h.stdinFd, h.stdoutFd]
  rfl

theorem ModuleSlot.Clear.pids {s : ModuleSlot} (h : s.Clear) : s.pids = [] := by
  rw [ModuleSlot.pids, h.pid]
  rfl

/-- What `close_module_process` has taken from a module so far. -/
def SlotOk (s : ModuleSlot) : CloseSpot → Prop
  | .check => s.active = false → s.Clear
  | .stdin => True
  | .stdout => s.stdinFd = none
  | .kill | .poll _ | .wait => s.stdinFd = none ∧ s.stdoutFd = none
  | .finish => s.Clear

variable {m m' : Machine} {s s' : ModuleSlot} {spot : CloseSpot} {next : Option CloseSpot}

/-- One call of `close_module_process` goes on towards a module that has nothing. -/
theorem closeStep_ok (h : closeStep m s spot = some (m', s', next)) (hok : SlotOk s spot) :
    next.elim s'.Clear (SlotOk s') := by
  revert h
  fun_cases closeStep m s spot <;> intro h <;> cases h
  case case1 =>
    split
    · trivial
    · rename_i hactive
      exact hok (Bool.eq_false_iff.2 hactive)
  case case2 | case3 => first | rfl | assumption
  case case4 | case5 => exact ⟨hok, by first | rfl | assumption⟩
  case case6 | case10 | case11 => exact hok
  case case7 hpid => exact ⟨hpid, hok.1, hok.2⟩
  case case9 | case12 | case14 | case16 => exact ⟨rfl, hok.1, hok.2⟩
  case case17 => exact ⟨hok.pid, hok.stdinFd, hok.stdoutFd⟩

/-- A module is switched off only when it has nothing left. -/
theorem closeStep_clear (h : closeStep m s spot = some (m', s', next)) (hok : SlotOk s spot)
    (hclear : s.active = false → s.Clear) : s'.active = false → s'.Clear := by
  revert h
  fun_cases closeStep m s spot <;> intro h <;> cases h
  case case17 => exact fun _ => ⟨hok.pid, hok.stdinFd, hok.stdoutFd⟩
  case case2 => exact fun ha => ⟨(hclear ha).pid, rfl, (hclear ha).stdoutFd⟩
  case case4 => exact fun ha => ⟨(hclear ha).pid, (hclear ha).stdinFd, rfl⟩
  case case9 | case12 | case14 | case16 => exact fun ha => ⟨rfl, (hclear ha).stdinFd, (hclear ha).stdoutFd⟩
  all_goals exact hclear

/-- What one call of `close_module_process` does to the system, and to the module. -/
inductive CloseEffect (m : Machine) (s : ModuleSlot) : Machine → ModuleSlot → Prop
  | quiet (active : Bool) : CloseEffect m s m { s with active }
  | stdin (fd : Nat) : s.stdinFd = some fd → CloseEffect m s (m.close fd) { s with stdinFd := none }
  | stdout (fd : Nat) : s.stdoutFd = some fd → CloseEffect m s (m.close fd) { s with stdoutFd := none }
  | kill (pid : Nat) : s.pid = some pid → CloseEffect m s (m.kill pid) s
  | lost (pid : Nat) : s.pid = some pid → m.children pid = none → CloseEffect m s m { s with pid := none }
  | reap (pid : Nat) : s.pid = some pid → CloseEffect m s (m.reap pid) { s with pid := none }

theorem closeStep_effect (h : closeStep m s spot = some (m', s', next)) : CloseEffect m s m' s' := by
  revert h
  fun_cases closeStep m s spot <;> intro h <;> cases h
  case case2 fd hfd => exact .stdin fd hfd
  case case4 fd hfd => exact .stdout fd hfd
  case case6 pid hpid => exact .kill pid hpid
  case case9 pid hpid hchild => exact .lost pid hpid hchild
  case case10 pid hpid _ _ _ _ => exact .kill pid hpid
  case case12 pid hpid _ _ _ => exact .reap pid hpid
  case case14 pid hpid hchild => exact .lost pid hpid hchild
  case case16 pid hpid _ _ _ => exact .reap pid hpid
  case case17 => exact .quiet false
  all_goals exact .quiet s.active

theorem CloseEffect.accounted (h : CloseEffect m s m' s') (fds pids : List Nat) {fds' pids' : List Nat}
    (ha : Accounted m (fds ++ (s.fds ++ fds')) (pids ++ (s.pids ++ pids'))) :
    Accounted m' (fds ++ (s'.fds ++ fds')) (pids ++ (s'.pids ++ pids')) := by
  cases h with
  | quiet active => exact ha
  | stdin fd hfd =>
    have hs : s.fds = fd :: s.stdoutFd.toList := by rw [ModuleSlot.fds, hfd]; rfl
    rw [hs, List.cons_append] at ha
    exact ha.close _
  | stdout fd hfd =>
    have hs : s.fds = s.stdinFd.toList ++ [fd] := by rw [ModuleSlot.fds, hfd]; rfl
    have hs' : ({ s with stdoutFd := none } : ModuleSlot).fds = s.stdinFd.toList := List.append_nil _
    rw [hs, List.append_assoc, ← List.append_assoc] at ha
    rw [hs', ← List.append_assoc]
    exact ha.close _
  | kill pid hpid =>
    refine ha.kill (List.mem_append_right _ (List.mem_append_left _ ?_))
    rw [ModuleSlot.pids, hpid]
    exact List.mem_singleton_self pid
  | lost pid hpid hchild =>
    have hrun : m.Runs pid := by
      refine ha.pids.used_of_mem (List.mem_append_right _ (List.mem_append_left _ ?_))
      rw [ModuleSlot.pids, hpid]
      exact List.mem_singleton_self pid
    rw [Machine.Runs, hchild] at hrun
    cases hrun
  | reap pid hpid =>
    have hs : s.pids = [pid] := by rw [ModuleSlot.pids, hpid]; rfl
    rw [hs, List.singleton_append] at ha
    exact ha.reap _

/-! ## Every run keeps the account -/

/-- The descriptors in the variables of the thread of `main`. -/
def MainAt.fds : MainAt → List Nat
  | .outPipe inR inW _ => [inR, inW]
  | .fork inR inW outR outW _ => [inR, inW, outR, outW]
  | .undo fds _ => fds
  | .parent fds slot _ => fds ++ slot.fds
  | .handshake slot _ | .abandon slot _ _ => slot.fds
  | _ => []

def MainAt.pids : MainAt → List Nat
  | .parent _ slot _ | .handshake slot _ | .abandon slot _ _ => slot.pids
  | _ => []

/-- In `load_modules_from_env`, at a slot that `g_modules` still has. -/
def MainAt.starting : MainAt → Prop
  | .inPipe _ | .outPipe .. | .fork .. | .undo .. | .parent .. | .handshake .. | .abandon .. => True
  | _ => False

def MainAt.fdsOf (main : MainAt) (modules : List ModuleSlot) : List Nat := main.fds ++ modules.flatMap ModuleSlot.fds

def MainAt.pidsOf (main : MainAt) (modules : List ModuleSlot) : List Nat := main.pids ++ modules.flatMap ModuleSlot.pids

/-- What the thread of `main` relies on where it is. -/
def MainAt.Ok (modules : List ModuleSlot) : MainAt → Prop
  | .down => modules = []
  | .parent _ slot _ | .handshake slot _ => slot.active = true
  | .abandon slot spot _ => SlotOk slot spot
  | .closeAll i spot => (∀ j < i, ∀ s, modules[j]? = some s → s.Clear) ∧ ∀ s, modules[i]? = some s → SlotOk s spot
  | _ => True

/-- The worker does not run but beside `up` and `join`. -/
def MainAt.beside : MainAt → WorkerSpot → Prop
  | .up, _ | .join, _ => True
  | _, worker => worker = .absent

def WorkerSpot.Ok (modules : List ModuleSlot) : WorkerSpot → Prop
  | .close i spot => ∀ s, modules[i]? = some s → SlotOk s spot
  | _ => True

structure HostInv (w : ModuleHost) : Prop where
  account : Accounted w.machine (w.main.fdsOf w.modules) (w.main.pidsOf w.modules)
  clear : ∀ s ∈ w.modules, s.active = false → s.Clear
  few : w.modules.length ≤ TNT_MAX_MODULES
  room : w.main.starting → w.modules.length < TNT_MAX_MODULES
  main : w.main.Ok w.modules
  beside : w.main.beside w.worker
  worker : w.worker.Ok w.modules

theorem hostInv_start : HostInv .start where
  account := by
    refine ⟨balanced_nil fun fd => ?_, balanced_nil fun pid => ?_, rfl⟩
    · unfold Machine.Holds ModuleHost.start
      dsimp only
      split <;> exact Bool.false_ne_true
    · exact Bool.false_ne_true
  clear := fun s hs => absurd hs List.not_mem_nil
  few := Nat.zero_le _
  room := False.elim
  main := rfl
  beside := rfl
  worker := trivial

/-- The slots of a table around the one at `i`. -/
theorem flatMap_set {α β : Type*} {l : List α} {i : Nat} {x : α} (h : l[i]? = some x) (f : α → List β) (y : α) :
    (l.set i y).flatMap f = (l.take i).flatMap f ++ (f y ++ (l.drop (i + 1)).flatMap f) ∧
      l.flatMap f = (l.take i).flatMap f ++ (f x ++ (l.drop (i + 1)).flatMap f) := by
  obtain ⟨hi, rfl⟩ := List.getElem?_eq_some_iff.1 h
  constructor
  · rw [List.set_eq_take_append_cons_drop, if_pos hi, List.flatMap_append, List.flatMap_cons]
  · conv_lhs => rw [← List.take_append_drop i l, List.drop_eq_getElem_cons hi]
    rw [List.flatMap_append, List.flatMap_cons]

/-- A call of `close_module_process` for a slot of the table, by the one thread that is at it. -/
theorem closeSlot_account {modules : List ModuleSlot} {main main' : MainAt} {i : Nat}
    (h : closeStep m s spot = some (m', s', next)) (hi : modules[i]? = some s)
    (ha : Accounted m (main.fdsOf modules) (main.pidsOf modules)) (hf : main'.fds = main.fds)
    (hp : main'.pids = main.pids) :
    Accounted m' (main'.fdsOf (modules.set i s')) (main'.pidsOf (modules.set i s')) := by
  unfold MainAt.fdsOf MainAt.pidsOf at ha ⊢
  rw [(flatMap_set hi ModuleSlot.fds s').1, (flatMap_set hi ModuleSlot.pids s').1, hf, hp,
    ← List.append_assoc main.fds, ← List.append_assoc main.pids]
  rw [(flatMap_set hi ModuleSlot.fds s').2, (flatMap_set hi ModuleSlot.pids s').2,
    ← List.append_assoc main.fds, ← List.append_assoc main.pids] at ha
  exact (closeStep_effect h).accounted _ _ ha

theorem closeSlot_clear {modules : List ModuleSlot} {i : Nat} (h : closeStep m s spot = some (m', s', next))
    (hi : modules[i]? = some s) (hok : SlotOk s spot) (hclear : ∀ s ∈ modules, s.active = false → s.Clear) :
    ∀ t ∈ modules.set i s', t.active = false → t.Clear := by
  intro t ht
  rcases List.mem_or_eq_of_mem_set ht with hold | rfl
  · exact hclear t hold
  · exact closeStep_clear h hok (hclear s (List.mem_of_getElem? hi))

/-- A call of `close_module_process` for the slot that is the main thread's own. -/
theorem closeOwn_account {modules : List ModuleSlot} (h : closeStep m s spot = some (m', s', next))
    (ha : Accounted m (s.fds ++ modules.flatMap ModuleSlot.fds) (s.pids ++ modules.flatMap ModuleSlot.pids)) :
    Accounted m' (s'.fds ++ modules.flatMap ModuleSlot.fds) (s'.pids ++ modules.flatMap ModuleSlot.pids) :=
  (closeStep_effect h).accounted [] [] ha

variable {cfg : HostConfig} {w w' : ModuleHost}

theorem hostInv_token {dirs : List Bytes} (hi : HostInv w) (hmain : w.main = .token dirs) :
    HostInv (w.nextToken cfg dirs) := by
  obtain ⟨machine, modules, running, main, worker⟩ := w
  dsimp only at hmain
  subst hmain
  have hw : worker = .absent := hi.beside
  subst hw
  unfold ModuleHost.nextToken
  split
  · split
    · exact ⟨hi.account, hi.clear, hi.few, False.elim, trivial, trivial, trivial⟩
    · exact ⟨hi.account, hi.clear, hi.few, False.elim, trivial, rfl, trivial⟩
  · rename_i dir rest hdirs
    have hroom : modules.length < TNT_MAX_MODULES := by
      by_contra hfull
      rw [if_neg hfull] at hdirs
      cases hdirs
    split
    · exact ⟨hi.account, hi.clear, hi.few, fun _ => hroom, trivial, rfl, trivial⟩
    · exact ⟨hi.account, hi.clear, hi.few, False.elim, trivial, rfl, trivial⟩

theorem hostInv_main {result : CallResult} (hi : HostInv w) (h : w.mainStep cfg result = some w') : HostInv w' := by
  obtain ⟨machine, modules, running, main, worker⟩ := w
  revert h
  unfold ModuleHost.mainStep
  dsimp only
  split <;> intro h
  case h_1 dirs =>
    cases h
    exact hostInv_token hi rfl
  case h_2 | h_4 | h_6 | h_8 =>
    cases h
    exact ⟨hi.account, hi.clear, hi.few, fun hs => hi.room (by first | exact hs | trivial), trivial, hi.beside,
      hi.worker⟩
  case h_3 dirs r wr =>
    split at h
    · rename_i hfree
      cases h
      exact ⟨hi.account.pipe hfree.1.1 hfree.2.1.1 hfree.2.2, hi.clear, hi.few, hi.room, trivial, hi.beside, hi.worker⟩
    · cases h
  case h_5 inR inW dirs r wr =>
    split at h
    · rename_i hfree
      cases h
      refine ⟨?_, hi.clear, hi.few, hi.room, trivial, hi.beside, hi.worker⟩
      have hpiped := hi.account.pipe hfree.1.1 hfree.2.1.1 hfree.2.2
      exact hpiped.perm (List.perm_append_comm_assoc [r, wr] [inR, inW] _) (List.Perm.refl _)
    · cases h
  case h_7 inR inW outR outW dirs pid =>
    split at h
    · cases h
    · rename_i hpid
      cases h
      refine ⟨?_, hi.clear, hi.few, hi.room, rfl, hi.beside, hi.worker⟩
      have hforked := hi.account.fork hpid ⟨true, childFds cfg.openMax machine.fds inR inW outR outW⟩
      have hends : [inR, inW, outR, outW].Perm [inR, outW, inW, outR] :=
        (@List.perm_append_comm _ [inW, outR] [outW]).cons inR
      exact hforked.perm (hends.append_right _) (List.Perm.refl _)
  case h_9 | h_11 =>
    cases h
    exact ⟨hi.account.close [], hi.clear, hi.few, hi.room, hi.main, hi.beside, hi.worker⟩
  case h_10 =>
    cases h
    exact ⟨hi.account, hi.clear, hi.few, hi.room, hi.main, hi.beside, hi.worker⟩
  case h_12 slot dirs =>
    cases h
    have hworker : worker = .absent := hi.beside
    subst hworker
    refine ⟨?_, ?_, ?_, False.elim, trivial, rfl, trivial⟩
    · have ha := hi.account
      unfold MainAt.fdsOf MainAt.pidsOf at ha ⊢
      rw [List.flatMap_append, List.flatMap_append, List.flatMap_singleton, List.flatMap_singleton]
      exact ha.perm List.perm_append_comm List.perm_append_comm
    · intro s hs hoff
      rcases List.mem_append.1 hs with hold | hnew
      · exact hi.clear s hold hoff
      · rw [List.mem_singleton.1 hnew, show slot.active = true from hi.main] at hoff
        cases hoff
    · rw [List.length_append]
      exact hi.room trivial
  case h_13 slot dirs =>
    cases h
    refine ⟨hi.account, hi.clear, hi.few, hi.room, fun hoff => ?_, hi.beside, hi.worker⟩
    rw [show slot.active = true from hi.main] at hoff
    cases hoff
  case h_14 slot spot dirs =>
    obtain ⟨⟨machine', slot', next⟩, hclose, rfl⟩ := Option.map_eq_some_iff.1 h
    have ha := closeOwn_account hclose hi.account
    have hok := closeStep_ok hclose hi.main
    cases next with
    | some spot' => exact ⟨ha, hi.clear, hi.few, hi.room, hok, hi.beside, hi.worker⟩
    | none =>
      rw [ModuleSlot.Clear.fds hok, ModuleSlot.Clear.pids hok] at ha
      exact ⟨ha, hi.clear, hi.few, False.elim, trivial, hi.beside, hi.worker⟩
  case h_15 =>
    cases h
    exact ⟨hi.account, hi.clear, hi.few, False.elim, trivial, trivial, trivial⟩
  case h_16 =>
    cases h
    refine ⟨hi.account, hi.clear, hi.few, False.elim, ⟨fun j hj => absurd hj (Nat.not_lt_zero j), ?_⟩, hi.beside,
      hi.worker⟩
    exact fun s hs => hi.clear s (List.mem_of_getElem? hs)
  case h_17 =>
    split at h
    · cases h
      refine ⟨hi.account, hi.clear, hi.few, False.elim, ⟨fun j hj => absurd hj (Nat.not_lt_zero j), ?_⟩, rfl, trivial⟩
      exact fun s hs => hi.clear s (List.mem_of_getElem? hs)
    · cases h
  case h_18 i spot =>
    have hworker : worker = .absent := hi.beside
    subst hworker
    obtain ⟨hdone, hspot⟩ := hi.main
    split at h
    · rename_i hend
      cases h
      have hall : ∀ s ∈ modules, s.Clear := by
        intro s hs
        obtain ⟨j, hj⟩ := List.getElem?_of_mem hs
        have hlt : j < modules.length := (List.getElem?_eq_some_iff.1 hj).1
        exact hdone j (hlt.trans_le (List.getElem?_eq_none_iff.1 hend)) s hj
      have hfds : modules.flatMap ModuleSlot.fds = [] := List.flatMap_eq_nil_iff.2 fun s hs => (hall s hs).fds
      have hpids : modules.flatMap ModuleSlot.pids = [] := List.flatMap_eq_nil_iff.2 fun s hs => (hall s hs).pids
      have ha := hi.account
      unfold MainAt.fdsOf MainAt.pidsOf at ha
      rw [hfds, hpids] at ha
      exact ⟨ha, fun s hs => absurd hs List.not_mem_nil, Nat.zero_le _, False.elim, rfl, rfl, trivial⟩
    · rename_i s hs
      obtain ⟨⟨machine', slot', next⟩, hclose, rfl⟩ := Option.map_eq_some_iff.1 h
      have hok : SlotOk s spot := hspot s hs
      have hclear := closeSlot_clear hclose hs hok hi.clear
      have hset : ∀ t, (modules.set i slot')[i]? = some t → t = slot' := fun t ht =>
        (Option.some.inj ((List.getElem?_set_self (List.getElem?_eq_some_iff.1 hs).1).symm.trans ht)).symm
      have hbefore : ∀ j < i, ∀ t, (modules.set i slot')[j]? = some t → t.Clear := fun j hj t ht =>
        hdone j hj t ((List.getElem?_set_ne (Nat.ne_of_gt hj)).symm.trans ht)
      have hstep := closeStep_ok hclose hok
      refine ⟨?_, hclear, ?_, ?_, ?_, ?_, trivial⟩
      · exact closeSlot_account hclose hs hi.account (by cases next <;> rfl) (by cases next <;> rfl)
      · rw [List.length_set]
        exact hi.few
      · cases next <;> exact False.elim
      · cases next with
        | some spot' => exact ⟨hbefore, fun t ht => hset t ht ▸ hstep⟩
        | none =>
          refine ⟨fun j hj t ht => ?_, fun t ht => hclear t (List.mem_of_getElem? ht)⟩
          rcases Nat.lt_succ_iff_lt_or_eq.1 hj with hlt | rfl
          · exact hbefore j hlt t ht
          · exact hset t ht ▸ hstep
      · cases next <;> rfl
  case h_19 => cases h

/-- The worker runs only beside these two. -/
theorem MainAt.beside_cases {main : MainAt} {worker : WorkerSpot} (h : main.beside worker) (hne : worker ≠ .absent) :
    main = .up ∨ main = .join := by
  cases main <;> first | exact .inl rfl | exact .inr rfl | exact absurd h hne

theorem hostInv_worker {ok : Bool} (hi : HostInv w) (h : w.workerStep ok = some w') : HostInv w' := by
  obtain ⟨machine, modules, running, main, worker⟩ := w
  have hgo (hne : worker ≠ .absent) (running' : Bool) (worker' : WorkerSpot) (hw : worker'.Ok modules) :
      HostInv ⟨machine, modules, running', main, worker'⟩ := by
    refine ⟨hi.account, hi.clear, hi.few, hi.room, hi.main, ?_, hw⟩
    rcases MainAt.beside_cases hi.beside hne with hmain | hmain <;> dsimp only at hmain <;> subst hmain <;> trivial
  revert h
  unfold ModuleHost.workerStep
  dsimp only
  split <;> intro h
  case h_1 =>
    cases h
    exact hgo WorkerSpot.noConfusion _ _ (by split <;> trivial)
  case h_2 =>
    cases h
    exact hgo WorkerSpot.noConfusion _ _ (by split <;> trivial)
  case h_3 i =>
    split at h
    · cases h
      exact hgo WorkerSpot.noConfusion _ _ trivial
    · cases h
      refine hgo WorkerSpot.noConfusion _ _ ?_
      split
      · exact fun s hs => hi.clear s (List.mem_of_getElem? hs)
      · trivial
  case h_4 i spot =>
    split at h
    · cases h
    · rename_i s hs
      obtain ⟨⟨machine', slot', next⟩, hclose, rfl⟩ := Option.map_eq_some_iff.1 h
      have hok : SlotOk s spot := hi.worker s hs
      have hclear := closeSlot_clear hclose hs hok hi.clear
      have hstep := closeStep_ok hclose hok
      have hmain : main = .up ∨ main = .join := MainAt.beside_cases hi.beside WorkerSpot.noConfusion
      refine ⟨closeSlot_account hclose hs hi.account rfl rfl, hclear, ?_, ?_, ?_, ?_, ?_⟩
      · exact (List.length_set ..).trans_le hi.few
      · rcases hmain with rfl | rfl <;> exact False.elim
      · rcases hmain with rfl | rfl <;> trivial
      · rcases hmain with rfl | rfl <;> trivial
      · cases next with
        | none => trivial
        | some spot' =>
          intro t ht
          have hself := List.getElem?_set_self (a := slot') (List.getElem?_eq_some_iff.1 hs).1
          cases hself.symm.trans ht
          exact hstep
  case h_5 => cases h

/-- The rest of the server does not touch what the runtime has. -/
theorem Accounted.foreign {fds pids : List Nat} {fd : Nat} {use : Option FdUse} (h : Accounted m fds pids)
    (hold : (m.fds fd).any FdUse.isPipe = false) (hnew : use.any FdUse.isPipe = false) :
    Accounted { m with fds := Function.update m.fds fd use } fds pids := by
  refine ⟨h.fds.congr fun a => ?_, h.pids, h.strays⟩
  unfold Machine.Holds
  by_cases ha : a = fd
  · simp [ha, hold, hnew]
  · simp [ha]

theorem hostInv_step {e : HostEvent} (hi : HostInv w) (h : hostStep cfg w e = some w') : HostInv w' := by
  obtain ⟨machine, modules, running, main, worker⟩ := w
  cases e with
  | main result => exact hostInv_main hi h
  | worker ok => exact hostInv_worker hi h
  | init paths =>
    cases main
    case down =>
      have hmodules : modules = [] := hi.main
      subst hmodules
      dsimp only [hostStep] at h
      split at h <;> cases h
      · exact ⟨hi.account, hi.clear, hi.few, False.elim, rfl, hi.beside, hi.worker⟩
      · exact ⟨hi.account, hi.clear, hi.few, False.elim, trivial, hi.beside, hi.worker⟩
    all_goals cases h
  | stop =>
    cases main
    case up =>
      cases h
      exact ⟨hi.account, hi.clear, hi.few, False.elim, trivial, trivial, hi.worker⟩
    all_goals cases h
  | exit pid =>
    obtain ⟨child, hchild, rfl⟩ := Option.map_eq_some_iff.1 h
    refine ⟨⟨hi.account.fds, hi.account.pids.congr fun p => ?_, hi.account.strays⟩, hi.clear, hi.few, hi.room, hi.main,
      hi.beside, hi.worker⟩
    unfold Machine.Runs
    by_cases hp : p = pid
    · subst hp
      dsimp only at hchild ⊢
      rw [Function.update_self, hchild]
      exact Iff.rfl
    · dsimp only
      rw [Function.update_of_ne hp]
  | openFd fd =>
    dsimp only [hostStep] at h
    split at h
    · rename_i hfree
      cases h
      have hnone : (machine.fds fd).any FdUse.isPipe = false := by rw [hfree.1]; rfl
      exact ⟨hi.account.foreign hnone rfl, hi.clear, hi.few, hi.room, hi.main, hi.beside, hi.worker⟩
    · cases h
  | closeFd fd =>
    dsimp only [hostStep] at h
    split at h
    · rename_i hother
      cases h
      have hnone : (machine.fds fd).any FdUse.isPipe = false := by rw [hother.1]; rfl
      exact ⟨hi.account.foreign hnone rfl, hi.clear, hi.few, hi.room, hi.main, hi.beside, hi.worker⟩
    · cases h

/-- Whatever call fails and whichever module is closed, by whom and when: the runtime closes no descriptor and
signals no process but its own, and its variables name all it has, once each. Only one thread at a time is at the
modules, of which there are at most eight, and where the runtime is down it has nothing left. -/
theorem modules_accounted {es : List HostEvent} (h : exec (hostStep cfg) .start es = some w) :
    w.machine.strays = 0 ∧ Balanced w.machine.Holds (w.main.fdsOf w.modules) ∧
    Balanced w.machine.Runs (w.main.pidsOf w.modules) ∧ (w.worker ≠ .absent → w.main = .up ∨ w.main = .join) ∧
    w.modules.length ≤ TNT_MAX_MODULES ∧
    (w.main = .down → (∀ fd, ¬ w.machine.Holds fd) ∧ ∀ pid, ¬ w.machine.Runs pid) := by
  have hi : HostInv w := exec_inv _ (fun _ _ _ hi hstep => hostInv_step hi hstep) hostInv_start h
  refine ⟨hi.account.strays, hi.account.fds, hi.account.pids, MainAt.beside_cases hi.beside, hi.few, fun hdown => ?_⟩
  have ha := hi.account
  have hempty : w.modules = [] := by
    have hmain := hi.main
    rw [hdown] at hmain
    exact hmain
  rw [hdown, hempty] at ha
  exact ⟨ha.fds.none_used, ha.pids.none_used⟩

def ModuleHost.isDown (w : ModuleHost) : Bool :=
  match w.main with
  | .down => true
  | _ => false

def echoHost : HostConfig :=
  ⟨fun path => if path = lit "m/tnt-module.json" then some echoManifest.render else none, 256⟩

/-- A module is started, and its process ends; the worker closes it, and the server is shut down. -/
def echoHostRun : List HostEvent :=
  [.init (some (lit "m")), .main .done, .main (.pipe 3 4), .main (.pipe 5 6), .main (.pid 77)] ++
    List.replicate 6 (.main .done) ++ [.worker true, .worker true, .worker false] ++
    List.replicate 4 (.worker true) ++ [.exit 77] ++ List.replicate 3 (.worker true) ++
    [.stop, .worker true] ++ List.replicate 3 (.main .done)

theorem modules_accounted_echo : ∃ w, exec (hostStep echoHost) .start echoHostRun = some w ∧
    w.machine.strays = 0 ∧ Balanced w.machine.Holds (w.main.fdsOf w.modules) ∧
    Balanced w.machine.Runs (w.main.pidsOf w.modules) ∧ (w.worker ≠ .absent → w.main = .up ∨ w.main = .join) ∧
    w.modules.length ≤ TNT_MAX_MODULES ∧
    (w.main = .down → (∀ fd, ¬ w.machine.Holds fd) ∧ ∀ pid, ¬ w.machine.Runs pid) := by
  have hdown : (exec (hostStep echoHost) .start echoHostRun).any ModuleHost.isDown = true := by decide +kernel
  obtain ⟨w, hw, -⟩ := (Option.any_eq_true ..).1 hdown
  exact ⟨w, hw, modules_accounted hw⟩

end Tnt
