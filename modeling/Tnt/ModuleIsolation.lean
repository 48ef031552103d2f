import Tnt.ModuleProcesses
/-!
# What a module has open (`start_module_process`, `close_inherited_fds`)

A child inherits all that the server has open, with the pipes of the other modules and the sockets of the users
among it. `childFds` closes all but the three standard streams, as far as the loop of `close_inherited_fds` goes;
`modules_sealed` follows that through a run: the two pipes of a module are between it and the server alone.
-/
open BaseLib

namespace Tnt

/-! ## The table of the child -/

/-- The standard streams of a module, on the pipes `ki` and `ko`. -/
def moduleFds (ki ko : Nat) : FdTable
  | 0 => some (.pipe ki false)
  | 1 => some (.pipe ko true)
  | 2 => some .other
  | _ => none

theorem moduleFds_inj {ki ko ki' ko' : Nat} (h : moduleFds ki ko = moduleFds ki' ko') : ki = ki' ∧ ko = ko' := by
  have h0 : some (FdUse.pipe ki false) = some (.pipe ki' false) := congrFun h 0
  have h1 : some (FdUse.pipe ko true) = some (.pipe ko' true) := congrFun h 1
  cases h0
  cases h1
  exact ⟨rfl, rfl⟩

theorem closeRange_apply (fds : FdTable) (lo n fd : Nat) :
    closeRange fds lo n fd = if lo ≤ fd ∧ fd < lo + n then none else fds fd := by
  induction n generalizing fds lo with
  | zero => rw [closeRange, if_neg (by omega)]
  | succ n ih =>
    rw [closeRange, ih]
    by_cases hfd : fd = lo
    · rw [hfd, Function.update_self, if_neg (by omega), if_pos (by omega)]
    · rw [Function.update_of_ne hfd]
      exact if_congr (by omega) rfl rfl

/-- The ends of a module's pipes stand on `inR` and `outW`, and nothing else is on its standard streams. -/
structure ForkReady (openMax : Int) (fds : FdTable) (inR inW outR outW ki ko : Nat) : Prop where
  stdio : ∀ fd < 3, fds fd = some .other
  bound : ∀ fd, fds fd ≠ none → (fd : Int) < openMax
  inR : fds inR = some (.pipe ki false)
  inW : fds inW = some (.pipe ki true)
  outR : fds outR = some (.pipe ko false)
  outW : fds outW = some (.pipe ko true)
  apart : ki ≠ ko

theorem childFds_eq {openMax : Int} {fds : FdTable} {inR inW outR outW ki ko : Nat}
    (h : ForkReady openMax fds inR inW outR outW ki ko) (hmax : openMax ≤ 65536) :
    childFds openMax fds inR inW outR outW = moduleFds ki ko := by
  have hhigh : ∀ fd id wr, fds fd = some (.pipe id wr) → 3 ≤ fd := by
    intro fd id wr hfd
    by_contra hlow
    rw [h.stdio fd (by omega)] at hfd
    cases hfd
  have hinR := hhigh _ _ _ h.inR
  have hinW := hhigh _ _ _ h.inW
  have houtR := hhigh _ _ _ h.outR
  have houtW := hhigh _ _ _ h.outW
  have hne : ∀ a b, fds a ≠ fds b → a ≠ b := fun a b hab he => hab (congrArg fds he)
  have hRW : inR ≠ inW := hne _ _ (by simp [h.inR, h.inW])
  have hRR : inR ≠ outR := hne _ _ (by simp [h.inR, h.outR, h.apart])
  have hWW : outW ≠ inW := hne _ _ (by simp [h.outW, h.inW, h.apart.symm])
  have hWR : outW ≠ outR := hne _ _ (by simp [h.outW, h.outR])
  have hlimit : closeLimit openMax = openMax.toNat := by
    have := h.bound inR (by rw [h.inR]; exact Option.some_ne_none _)
    rw [closeLimit, if_neg (by omega)]
  funext fd
  unfold childFds closeInheritedFds
  rw [closeRange_apply, hlimit]
  match fd with
  | 0 =>
    rw [if_neg (by omega), Function.update_of_ne (by omega), Function.update_of_ne (by omega),
      Function.update_of_ne (by omega), Function.update_self, Function.update_of_ne hRR, Function.update_of_ne hRW,
      h.inR]
    rfl
  | 1 =>
    rw [if_neg (by omega), Function.update_of_ne (by omega), Function.update_of_ne (by omega), Function.update_self,
      Function.update_of_ne (by omega), Function.update_of_ne hWR, Function.update_of_ne hWW, h.outW]
    rfl
  | 2 =>
    rw [if_neg (by omega), Function.update_of_ne (by omega), Function.update_of_ne (by omega),
      Function.update_of_ne (by omega), Function.update_of_ne (by omega), Function.update_of_ne (by omega),
      Function.update_of_ne (by omega), h.stdio 2 (by omega)]
    rfl
  | fd + 3 =>
    split
    · rfl
    · rename_i hhigh
      -- beyond the bound nothing was open
      have hnone : fds (fd + 3) = none := by
        by_contra hopen
        have := h.bound _ hopen
        omega
      simp only [Function.update_apply, hnone, ite_self, moduleFds]
      simp

/-! ## The ends of the pipes -/

/-- What the process of a module has open, until it is waited for. -/
def Machine.tables (m : Machine) (pid : Nat) : Option FdTable := (m.children pid).map Child.fds

/-- The process of a module has one end of each of its two pipes, and the module's slot names the other ends, as
long as the server has them. -/
def Wired (m : Machine) (s : ModuleSlot) : Prop :=
  ∀ pid, s.pid = some pid → ∃ ki ko, ki ≠ ko ∧ ki < m.pipes ∧ ko < m.pipes ∧ m.tables pid = some (moduleFds ki ko) ∧
    (∀ fd, s.stdinFd = some fd ↔ m.fds fd = some (.pipe ki true)) ∧
    ∀ fd, s.stdoutFd = some fd ↔ m.fds fd = some (.pipe ko false)

/-- No descriptor and no process has an end that is another's; `ends` are those of a child that the server has not
closed yet. -/
structure Sealed (openMax : Int) (m : Machine) (ends : Nat → List Nat) (slots : List ModuleSlot) : Prop where
  stdio : ∀ fd < 3, m.fds fd = some .other
  bound : ∀ fd, m.fds fd ≠ none → (fd : Int) < openMax
  ids : ∀ fd id wr, m.fds fd = some (.pipe id wr) → id < m.pipes
  once : ∀ a b id wr, m.fds a = some (.pipe id wr) → m.fds b = some (.pipe id wr) → a = b
  table : ∀ pid t, m.tables pid = some t → ∃ ki ko, ki < m.pipes ∧ ko < m.pipes ∧ t = moduleFds ki ko
  apart : ∀ p q ki ko ki' ko', p ≠ q → m.tables p = some (moduleFds ki ko) → m.tables q = some (moduleFds ki' ko') →
    ki ≠ ki' ∧ ki ≠ ko' ∧ ko ≠ ki' ∧ ko ≠ ko'
  wired : ∀ s ∈ slots, Wired m s
  ends : ∀ pid ki ko, m.tables pid = some (moduleFds ki ko) → ∀ fd,
    m.fds fd = some (.pipe ki false) ∨ m.fds fd = some (.pipe ko true) → fd ∈ ends pid

/-- No process has an end of the pipe. -/
def Unused (m : Machine) (id : Nat) : Prop :=
  ∀ pid ki ko, m.tables pid = some (moduleFds ki ko) → id ≠ ki ∧ id ≠ ko

namespace Sealed

variable {openMax : Int} {m m' : Machine} {ends : Nat → List Nat} {slots : List ModuleSlot}

theorem lt {pid ki ko : Nat} (h : Sealed openMax m ends slots) (ht : m.tables pid = some (moduleFds ki ko)) :
    ki < m.pipes ∧ ko < m.pipes := by
  obtain ⟨ki', ko', hki, hko, heq⟩ := h.table pid _ ht
  obtain ⟨rfl, rfl⟩ := moduleFds_inj heq
  exact ⟨hki, hko⟩

theorem subset {slots' : List ModuleSlot} (h : Sealed openMax m ends slots) (hs : ∀ s ∈ slots', s ∈ slots) :
    Sealed openMax m ends slots' :=
  { h with wired := fun s hmem => h.wired s (hs s hmem) }

/-- The pipes that were there are as before. -/
structure SamePipes (m m' : Machine) : Prop where
  fds : ∀ fd id wr, id < m.pipes → (m'.fds fd = some (.pipe id wr) ↔ m.fds fd = some (.pipe id wr))
  tables : m'.tables = m.tables
  pipes : m.pipes ≤ m'.pipes

theorem wired_same (hsame : SamePipes m m') {s : ModuleSlot} (h : Wired m s) : Wired m' s := by
  intro pid hpid
  obtain ⟨ki, ko, hne, hki, hko, ht, hin, hout⟩ := h pid hpid
  refine ⟨ki, ko, hne, hki.trans_le hsame.pipes, hko.trans_le hsame.pipes, hsame.tables ▸ ht, fun fd => ?_,
    fun fd => ?_⟩
  · exact (hin fd).trans (hsame.fds fd ki true hki).symm
  · exact (hout fd).trans (hsame.fds fd ko false hko).symm

theorem same (h : Sealed openMax m ends slots) (hsame : SamePipes m m')
    (hstdio : ∀ fd < 3, m'.fds fd = some .other) (hbound : ∀ fd, m'.fds fd ≠ none → (fd : Int) < openMax)
    (hids : ∀ fd id wr, m'.fds fd = some (.pipe id wr) → id < m'.pipes)
    (honce : ∀ a b id wr, m'.fds a = some (.pipe id wr) → m'.fds b = some (.pipe id wr) → a = b) :
    Sealed openMax m' ends slots := by
  refine ⟨hstdio, hbound, hids, honce, fun pid t ht => ?_, ?_, fun s hs => wired_same hsame (h.wired s hs), ?_⟩
  · obtain ⟨ki, ko, hki, hko, heq⟩ := h.table pid t (hsame.tables ▸ ht)
    exact ⟨ki, ko, hki.trans_le hsame.pipes, hko.trans_le hsame.pipes, heq⟩
  · rw [hsame.tables]
    exact h.apart
  · intro pid ki ko ht fd hfd
    rw [hsame.tables] at ht
    obtain ⟨hki, hko⟩ := h.lt ht
    exact h.ends pid ki ko ht fd (hfd.imp (hsame.fds fd ki false hki).1 (hsame.fds fd ko true hko).1)

/-- A descriptor of the runtime is closed. -/
theorem close {ends' : Nat → List Nat} {fd : Nat} (h : Sealed openMax m ends slots) (hheld : m.Holds fd)
    (hends : ∀ p, ∀ a ∈ ends p, a ≠ fd → a ∈ ends' p) {slots' : List ModuleSlot}
    (hslots : ∀ s' ∈ slots', ∃ s ∈ slots, s'.pid = s.pid ∧
      (∀ a, s'.stdinFd = some a ↔ s.stdinFd = some a ∧ a ≠ fd) ∧
      ∀ a, s'.stdoutFd = some a ↔ s.stdoutFd = some a ∧ a ≠ fd) :
    Sealed openMax (m.close fd) ends' slots' := by
  have hfd : 3 ≤ fd := by
    by_contra hlow
    rw [Machine.Holds, h.stdio fd (by omega)] at hheld
    cases hheld
  have hiff : ∀ a use, (m.close fd).fds a = some use ↔ m.fds a = some use ∧ a ≠ fd := by
    intro a use
    unfold Machine.close
    by_cases ha : a = fd
    · simp [ha]
    · simp [ha]
  refine ⟨fun a ha => (hiff a _).2 ⟨h.stdio a ha, by omega⟩, fun a ha => ?_,
    fun a id wr ha => h.ids a id wr ((hiff a _).1 ha).1,
    fun a b id wr ha hb => h.once a b id wr ((hiff a _).1 ha).1 ((hiff b _).1 hb).1, h.table, h.apart, ?_, ?_⟩
  · obtain ⟨use, huse⟩ := Option.ne_none_iff_exists'.1 ha
    have hold := ((hiff a use).1 huse).1
    exact h.bound a (by rw [hold]; exact Option.some_ne_none _)
  · intro s' hs' pid hpid
    obtain ⟨s, hs, hsame, hin, hout⟩ := hslots s' hs'
    obtain ⟨ki, ko, hne, hki, hko, ht, hin', hout'⟩ := h.wired s hs pid (hsame ▸ hpid)
    refine ⟨ki, ko, hne, hki, hko, ht, fun a => ?_, fun a => ?_⟩
    · rw [hin, hin', hiff]
    · rw [hout, hout', hiff]
  · intro pid ki ko ht a ha
    have hold : a ≠ fd ∧ (m.fds a = some (.pipe ki false) ∨ m.fds a = some (.pipe ko true)) := by
      rcases ha with ha | ha
      · exact ⟨((hiff a _).1 ha).2, .inl ((hiff a _).1 ha).1⟩
      · exact ⟨((hiff a _).1 ha).2, .inr ((hiff a _).1 ha).1⟩
    exact hends pid a (h.ends pid ki ko ht a hold.2) hold.1

/-- The process of a module is waited for. -/
theorem reap {pid : Nat} (h : Sealed openMax m ends slots) {slots' : List ModuleSlot}
    (hslots : ∀ s' ∈ slots', s'.pid ≠ some pid ∧ (s' ∈ slots ∨ s'.pid = none)) :
    Sealed openMax (m.reap pid) ends slots' := by
  have htable : ∀ p t, (m.reap pid).tables p = some t ↔ p ≠ pid ∧ m.tables p = some t := by
    intro p t
    unfold Machine.tables Machine.reap
    by_cases hp : p = pid
    · simp [hp]
    · simp [hp]
  refine ⟨h.stdio, h.bound, h.ids, h.once, fun p t ht => h.table p t ((htable p t).1 ht).2,
    fun p q _ _ _ _ hne hp hq => h.apart p q _ _ _ _ hne ((htable _ _).1 hp).2 ((htable _ _).1 hq).2, ?_,
    fun p ki ko ht => h.ends p ki ko ((htable _ _).1 ht).2⟩
  intro s' hs' p hp
  obtain ⟨hother, hold | hnone⟩ := hslots s' hs'
  · obtain ⟨ki, ko, hne, hki, hko, ht, hio⟩ := h.wired s' hold p hp
    exact ⟨ki, ko, hne, hki, hko, (htable _ _).2 ⟨fun he => hother (he ▸ hp), ht⟩, hio⟩
  · rw [hnone] at hp
    cases hp

/-- A pipe is made. -/
theorem pipe {r w : Nat} (h : Sealed openMax m ends slots) (hr : m.fds r = none) (hw : m.fds w = none) (hne : r ≠ w)
    (hrb : (r : Int) < openMax) (hwb : (w : Int) < openMax) : Sealed openMax (m.pipe r w) ends slots := by
  have hfds : ∀ a, (m.pipe r w).fds a =
      if a = w then some (.pipe m.pipes true) else if a = r then some (.pipe m.pipes false) else m.fds a := by
    intro a
    unfold Machine.pipe
    simp only [Function.update_apply]
  have hnew : m.pipes < (m.pipe r w).pipes := Nat.lt_succ_self _
  have hends : ∀ a id wr, (m.pipe r w).fds a = some (.pipe id wr) →
      (a = w ∧ id = m.pipes ∧ wr = true) ∨ (a = r ∧ id = m.pipes ∧ wr = false) ∨ m.fds a = some (.pipe id wr) := by
    intro a id wr ha
    rw [hfds] at ha
    split_ifs at ha with h1 h2
    · cases ha
      exact .inl ⟨h1, rfl, rfl⟩
    · cases ha
      exact .inr (.inl ⟨h2, rfl, rfl⟩)
    · exact .inr (.inr ha)
  refine h.same ⟨fun a id wr hid => ?_, rfl, Nat.le_succ _⟩ (fun a ha => ?_) (fun a ha => ?_) (fun a id wr ha => ?_)
    (fun a b id wr ha hb => ?_)
  · constructor
    · intro ha
      rcases hends a id wr ha with ⟨-, rfl, -⟩ | ⟨-, rfl, -⟩ | hold
      · exact absurd hid (Nat.lt_irrefl _)
      · exact absurd hid (Nat.lt_irrefl _)
      · exact hold
    · intro ha
      have haw : a ≠ w := fun he => by rw [he, hw] at ha; cases ha
      have har : a ≠ r := fun he => by rw [he, hr] at ha; cases ha
      rw [hfds, if_neg haw, if_neg har, ha]
  · have hstd := h.stdio a ha
    have haw : a ≠ w := fun he => by rw [he, hw] at hstd; cases hstd
    have har : a ≠ r := fun he => by rw [he, hr] at hstd; cases hstd
    rw [hfds, if_neg haw, if_neg har, hstd]
  · rw [hfds] at ha
    split_ifs at ha with h1 h2
    · exact h1 ▸ hwb
    · exact h2 ▸ hrb
    · exact h.bound a ha
  · rcases hends a id wr ha with ⟨-, rfl, -⟩ | ⟨-, rfl, -⟩ | hold
    · exact hnew
    · exact hnew
    · exact (h.ids a id wr hold).trans hnew
  · rcases hends a id wr ha with ⟨rfl, rfl, rfl⟩ | ⟨rfl, rfl, rfl⟩ | hold <;>
      rcases hends b _ _ hb with ⟨rfl, hid, hwr⟩ | ⟨rfl, hid, hwr⟩ | hold'
    all_goals first
      | rfl
      | exact absurd (h.ids _ _ _ hold') (Nat.lt_irrefl _)
      | exact absurd (h.ids _ _ _ hold) (hid ▸ Nat.lt_irrefl _)
      | cases hwr
      | exact h.once _ _ _ _ hold hold'

/-- A child is started on two pipes that no other has an end of. -/
theorem fork {inR inW outR outW ki ko pid : Nat} (h : Sealed openMax m (fun _ => []) slots)
    (hready : ForkReady openMax m.fds inR inW outR outW ki ko) (hmax : openMax ≤ 65536) (hpid : m.tables pid = none)
    (hi : Unused m ki) (ho : Unused m ko) :
    Sealed openMax
      { m with children := Function.update m.children pid (some ⟨true, childFds openMax m.fds inR inW outR outW⟩) }
      (fun p => if p = pid then [inR, outW] else []) (⟨some pid, some inW, some outR, true⟩ :: slots) := by
  rw [childFds_eq hready hmax]
  let m' : Machine := { m with children := Function.update m.children pid (some ⟨true, moduleFds ki ko⟩) }
  have hself : m'.tables pid = some (moduleFds ki ko) := by simp [Machine.tables, m']
  have hother : ∀ p, p ≠ pid → m'.tables p = m.tables p := by
    intro p hp
    simp [Machine.tables, m', hp]
  have hkeep : ∀ p t, m.tables p = some t → m'.tables p = some t := by
    intro p t ht
    have hp : p ≠ pid := fun he => by rw [he, hpid] at ht; cases ht
    rw [hother p hp, ht]
  have hki := h.ids _ _ _ hready.inR
  have hko := h.ids _ _ _ hready.outW
  refine ⟨h.stdio, h.bound, h.ids, h.once, fun p t ht => ?_, fun p q k1 k2 k1' k2' hne hp hq => ?_, ?_, ?_⟩
  · by_cases hp : p = pid
    · subst hp
      exact ⟨ki, ko, hki, hko, (Option.some.inj (hself.symm.trans ht)).symm⟩
    · exact h.table p t (hother p hp ▸ ht)
  · by_cases hp' : p = pid
    · subst hp'
      obtain ⟨rfl, rfl⟩ := moduleFds_inj (Option.some.inj (hself.symm.trans hp))
      have hq' := hother q hne.symm ▸ hq
      exact ⟨(hi q _ _ hq').1, (hi q _ _ hq').2, (ho q _ _ hq').1, (ho q _ _ hq').2⟩
    · have hp'' := hother p hp' ▸ hp
      by_cases hq' : q = pid
      · subst hq'
        obtain ⟨rfl, rfl⟩ := moduleFds_inj (Option.some.inj (hself.symm.trans hq))
        exact ⟨(hi p _ _ hp'').1.symm, (ho p _ _ hp'').1.symm, (hi p _ _ hp'').2.symm, (ho p _ _ hp'').2.symm⟩
      · exact h.apart p q _ _ _ _ hne hp'' (hother q hq' ▸ hq)
  · intro s hs p hp
    rcases List.mem_cons.1 hs with rfl | hs
    · cases hp
      refine ⟨ki, ko, hready.apart, hki, hko, hself, fun fd => ?_, fun fd => ?_⟩
      · exact ⟨fun he => Option.some.inj he ▸ hready.inW, fun he => congrArg some (h.once _ _ _ _ hready.inW he)⟩
      · exact ⟨fun he => Option.some.inj he ▸ hready.outR, fun he => congrArg some (h.once _ _ _ _ hready.outR he)⟩
    · obtain ⟨k1, k2, hne, h1, h2, ht, hio⟩ := h.wired s hs p hp
      exact ⟨k1, k2, hne, h1, h2, hkeep p _ ht, hio⟩
  · intro p k1 k2 hp fd hfd
    by_cases hp' : p = pid
    · subst hp'
      obtain ⟨rfl, rfl⟩ := moduleFds_inj (Option.some.inj (hself.symm.trans hp))
      rw [if_pos rfl]
      rcases hfd with hfd | hfd
      · rw [h.once _ _ _ _ hfd hready.inR]
        exact List.mem_cons_self
      · rw [h.once _ _ _ _ hfd hready.outW]
        exact List.mem_cons_of_mem _ List.mem_cons_self
    · exact absurd (h.ends p k1 k2 (hother p hp' ▸ hp) fd hfd) List.not_mem_nil

end Sealed

/-! ## Every run keeps them apart -/

/-- The slot of a module that is being started, or given up. -/
def MainAt.slots : MainAt → List ModuleSlot
  | .parent _ slot _ | .handshake slot _ | .abandon slot _ _ => [slot]
  | _ => []

/-- The pipes of `start_module_process` before it forks. -/
def MainAt.Piped (m : Machine) : MainAt → Prop
  | .outPipe inR inW _ => ∃ k, m.fds inR = some (.pipe k false) ∧ m.fds inW = some (.pipe k true) ∧ Unused m k
  | .fork inR inW outR outW _ => ∃ ki ko, ki ≠ ko ∧ m.fds inR = some (.pipe ki false) ∧
      m.fds inW = some (.pipe ki true) ∧ m.fds outR = some (.pipe ko false) ∧ m.fds outW = some (.pipe ko true) ∧
      Unused m ki ∧ Unused m ko
  | _ => True

variable {cfg : HostConfig} {w w' : ModuleHost}

/-- The rest of the server opens a descriptor, or closes one of its own. -/
theorem Sealed.foreign {openMax : Int} {m : Machine} {ends : Nat → List Nat} {slots : List ModuleSlot} {fd : Nat}
    {use : Option FdUse} (h : Sealed openMax m ends slots) (hfd : 3 ≤ fd) (hbound : use ≠ none → (fd : Int) < openMax)
    (hold : ∀ id wr, m.fds fd ≠ some (.pipe id wr)) (hnew : ∀ id wr, use ≠ some (.pipe id wr)) :
    Sealed openMax { m with fds := Function.update m.fds fd use } ends slots := by
  have hiff : ∀ a id wr, Function.update m.fds fd use a = some (.pipe id wr) ↔ m.fds a = some (.pipe id wr) := by
    intro a id wr
    by_cases ha : a = fd
    · rw [ha, Function.update_self]
      exact iff_of_false (hnew id wr) (hold id wr)
    · rw [Function.update_of_ne ha]
  refine h.same ⟨fun a id wr _ => hiff a id wr, rfl, Nat.le_refl _⟩ (fun a ha => ?_) (fun a ha => ?_)
    (fun a id wr ha => h.ids a id wr ((hiff a id wr).1 ha))
    (fun a b id wr ha hb => h.once a b id wr ((hiff a id wr).1 ha) ((hiff b id wr).1 hb))
  · exact (Function.update_of_ne (by omega) _ _).trans (h.stdio a ha)
  · dsimp only at ha
    by_cases hafd : a = fd
    · rw [hafd, Function.update_self] at ha
      exact hafd ▸ hbound ha
    · rw [Function.update_of_ne hafd] at ha
      exact h.bound a ha

theorem MainAt.Piped.foreign {m : Machine} {main : MainAt} {fd : Nat} {use : Option FdUse} (h : main.Piped m)
    (hold : ∀ id wr, m.fds fd ≠ some (.pipe id wr)) :
    main.Piped { m with fds := Function.update m.fds fd use } := by
  have hkeep : ∀ a id wr, m.fds a = some (.pipe id wr) → Function.update m.fds fd use a = some (.pipe id wr) := by
    intro a id wr ha
    have hne : a ≠ fd := fun he => hold id wr (he ▸ ha)
    rw [Function.update_of_ne hne, ha]
  cases main with
  | outPipe inR inW dirs =>
    obtain ⟨k, hinR, hinW, hunused⟩ := h
    exact ⟨k, hkeep _ _ _ hinR, hkeep _ _ _ hinW, hunused⟩
  | fork inR inW outR outW dirs =>
    obtain ⟨ki, ko, hne, hinR, hinW, houtR, houtW, hunused⟩ := h
    exact ⟨ki, ko, hne, hkeep _ _ _ hinR, hkeep _ _ _ hinW, hkeep _ _ _ houtR, hkeep _ _ _ houtW, hunused⟩
  | _ => trivial

end Tnt
