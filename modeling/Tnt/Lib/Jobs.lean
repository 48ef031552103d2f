import Mathlib.Data.List.Basic
import Mathlib.Data.List.Count
import Mathlib.Data.List.Perm.Basic
import Mathlib.Data.List.Pairwise
/-!
# Jobs that take turns

Each job follows a program, a list of steps, and any job may take its next step at
any time. A step that fails ends its job. The history records every step that was
taken or failed, in order; `trace` is the part of it that belongs to one job, and
`took` lists the jobs that took a given step, in the order in which they did.

`Follows` says that every trace is a beginning of the job's program, perhaps with a
failed step at its end. When all jobs are done and no step failed, any two steps
were taken by the same jobs (`Follows.took_perm`); they were taken in the same
order where no job started before the others were done (`Sequential.took_eq`).
-/

namespace BaseLib

/-- A job, by what it is about and the steps that are left. -/
structure Job (α κ : Type*) where
  info : α
  todo : List κ
  deriving DecidableEq

inductive Outcome (κ : Type*)
  | done (k : κ)
  | failed (k : κ)
  deriving DecidableEq

structure Entry (α κ : Type*) where
  id : Nat
  info : α
  outcome : Outcome κ
  deriving DecidableEq

/-- Every job that was started, by its number, and what happened. -/
structure Jobs (α κ : Type*) where
  jobs : List (Job α κ)
  history : List (Entry α κ)

namespace Jobs

variable {α κ : Type*}

def init : Jobs α κ := ⟨[], []⟩

/-- Start a job, whose first step is taken with it. -/
def start (s : Jobs α κ) (info : α) (k : κ) (todo : List κ) : Jobs α κ :=
  ⟨s.jobs ++ [⟨info, todo⟩], s.history ++ [⟨s.jobs.length, info, .done k⟩]⟩

/-- Job `id` takes step `k`. -/
def take (s : Jobs α κ) (id : Nat) (j : Job α κ) (k : κ) : Jobs α κ :=
  ⟨s.jobs.set id { j with todo := j.todo.tail }, s.history ++ [⟨id, j.info, .done k⟩]⟩

/-- Step `k` of job `id` fails. -/
def fail (s : Jobs α κ) (id : Nat) (j : Job α κ) (k : κ) : Jobs α κ :=
  ⟨s.jobs.set id { j with todo := [] }, s.history ++ [⟨id, j.info, .failed k⟩]⟩

/-- Job `id`, when `k` is its next step. -/
def next [DecidableEq κ] (s : Jobs α κ) (id : Nat) (k : κ) : Option (Job α κ) :=
  s.jobs[id]?.filter fun j => j.todo.head? == some k

/-- No job has a step left. -/
def AllDone (s : Jobs α κ) : Prop := ∀ j ∈ s.jobs, j.todo = []

instance [DecidableEq κ] (s : Jobs α κ) : Decidable s.AllDone := inferInstanceAs (Decidable (∀ j ∈ s.jobs, j.todo = []))

/-- What happened to job `id`. -/
def trace (id : Nat) (history : List (Entry α κ)) : List (Outcome κ) :=
  (history.filter (·.id == id)).map (·.outcome)

/-- The jobs that took step `k`. -/
def took [DecidableEq κ] (k : κ) (history : List (Entry α κ)) : List (Nat × α) :=
  history.filterMap fun e => if e.outcome = .done k then some (e.id, e.info) else none

theorem next_some [DecidableEq κ] {s : Jobs α κ} {id : Nat} {k : κ} {j : Job α κ} (h : s.next id k = some j) :
    s.jobs[id]? = some j ∧ ∃ rest, j.todo = k :: rest := by
  obtain ⟨hj, hk⟩ := Option.filter_eq_some_iff.1 h
  refine ⟨hj, j.todo.tail, ?_⟩
  rw [beq_iff_eq] at hk
  exact (List.head?_eq_some_iff.1 hk).elim fun rest hrest => by rw [hrest]; rfl

theorem trace_append (id : Nat) (a b : List (Entry α κ)) : trace id (a ++ b) = trace id a ++ trace id b := by
  simp [trace]

theorem trace_singleton (id : Nat) (e : Entry α κ) : trace id [e] = if e.id = id then [e.outcome] else [] := by
  by_cases h : e.id = id <;> simp [trace, h]

theorem mem_trace {id : Nat} {history : List (Entry α κ)} {o : Outcome κ} :
    o ∈ trace id history ↔ ∃ info, (⟨id, info, o⟩ : Entry α κ) ∈ history := by
  simp only [trace, List.mem_map, List.mem_filter, beq_iff_eq]
  constructor
  · rintro ⟨e, ⟨he, rfl⟩, rfl⟩
    exact ⟨e.info, he⟩
  · rintro ⟨info, h⟩
    exact ⟨_, ⟨h, rfl⟩, rfl⟩

theorem took_append [DecidableEq κ] (k : κ) (a b : List (Entry α κ)) : took k (a ++ b) = took k a ++ took k b :=
  List.filterMap_append

theorem took_concat [DecidableEq κ] (k : κ) (history : List (Entry α κ)) (id : Nat) (info : α) :
    took k (history ++ [⟨id, info, .done k⟩]) = took k history ++ [(id, info)] := by
  rw [took_append]
  simp [took]

/-- Another step, or one that failed, adds nothing. -/
theorem took_concat_ne [DecidableEq κ] {k : κ} (history : List (Entry α κ)) {e : Entry α κ}
    (h : e.outcome ≠ .done k) : took k (history ++ [e]) = took k history := by
  rw [took_append]
  simp [took, h]

theorem mem_took [DecidableEq κ] {k : κ} {history : List (Entry α κ)} {x : Nat × α} :
    x ∈ took k history ↔ (⟨x.1, x.2, .done k⟩ : Entry α κ) ∈ history := by
  simp only [took, List.mem_filterMap, Option.ite_none_right_eq_some, Option.some.injEq]
  constructor
  · rintro ⟨⟨id, info, o⟩, he, rfl, rfl⟩
    exact he
  · intro h
    exact ⟨_, h, rfl, rfl⟩

/-- What the jobs are about does not change when one of them moves. -/
theorem forall_info_set {s : Jobs α κ} {P : α → Prop} (h : ∀ j ∈ s.jobs, P j.info) {id : Nat} {j : Job α κ}
    (hj : s.jobs[id]? = some j) (todo : List κ) : ∀ j' ∈ s.jobs.set id { j with todo := todo }, P j'.info := by
  intro j' hj'
  rcases List.mem_or_eq_of_mem_set hj' with hj' | rfl
  · exact h j' hj'
  · exact h j (List.mem_of_getElem? hj)

/-! ## Following the programs -/

/-- The trace of a job of this program, with these steps left. -/
inductive Runs (program : List κ) : List (Outcome κ) → List κ → Prop
  | going {pre todo : List κ} (h : pre ++ todo = program) : Runs program (pre.map .done) todo
  | aborted {pre rest : List κ} {k : κ} (h : pre ++ k :: rest = program) :
    Runs program (pre.map .done ++ [.failed k]) []

theorem Runs.take {program todo : List κ} {tr : List (Outcome κ)} {k : κ} (h : Runs program tr (k :: todo)) :
    Runs program (tr ++ [.done k]) todo := by
  cases h with
  | @going pre _ h =>
    have := @Runs.going _ program (pre ++ [k]) todo (by simpa using h)
    simpa using this

theorem Runs.fail {program todo : List κ} {tr : List (Outcome κ)} {k : κ} (h : Runs program tr (k :: todo)) :
    Runs program (tr ++ [.failed k]) [] := by
  cases h with
  | going h => exact .aborted h

/-- A finished job that did not fail took all its steps. -/
theorem Runs.complete {program : List κ} {tr : List (Outcome κ)} (h : Runs program tr [])
    (hf : ∀ k, .failed k ∉ tr) : tr = program.map .done := by
  cases h with
  | going h => rw [← h, List.append_nil]
  | @aborted _ _ k h => exact absurd (by simp) (hf k)

/-- A job takes no step more often than its program has it. -/
theorem Runs.count_le [DecidableEq κ] {program todo : List κ} {tr : List (Outcome κ)} (h : Runs program tr todo)
    (k : κ) :
    tr.count (.done k) ≤ program.count k := by
  have hinj : Function.Injective (Outcome.done : κ → Outcome κ) := fun a b hab => Outcome.done.inj hab
  cases h with
  | @going pre _ h =>
    rw [← h, List.count_map_of_injective _ _ hinj, List.count_append]
    exact Nat.le_add_right _ _
  | @aborted pre rest l h =>
    have hfailed : [(Outcome.failed l : Outcome κ)].count (.done k) = 0 := List.count_eq_zero.2 (by simp)
    rw [← h, List.count_append, List.count_append, List.count_map_of_injective _ _ hinj, hfailed]
    exact Nat.le_add_right _ _

/-- What is in front of a step that the program has once, and what may be behind it. -/
theorem Runs.split {before after left : List κ} {tr t₁ t₂ : List (Outcome κ)} {k : κ}
    (h : Runs (before ++ k :: after) tr left) (hb : k ∉ before) (ha : k ∉ after) (htr : tr = t₁ ++ .done k :: t₂) :
    t₁ = before.map .done ∧ ∀ l, .done l ∈ t₂ → l ∈ after := by
  obtain ⟨pre, rest, tail, hprog, rfl, htail⟩ : ∃ pre rest tail, pre ++ rest = before ++ k :: after ∧
      tr = pre.map .done ++ tail ∧ ∀ l, Outcome.done l ∉ tail := by
    cases h with
    | @going pre _ h => exact ⟨pre, left, [], h, (List.append_nil _).symm, by simp⟩
    | @aborted pre rest l h => exact ⟨pre, l :: rest, [.failed l], h, rfl, by simp⟩
  rcases List.append_eq_append_iff.1 htr with ⟨as, hpre, has⟩ | ⟨as, hpre, has⟩
  · exact absurd (has ▸ by simp) (htail k)
  · cases as with
    | nil => exact absurd ((List.nil_append tail ▸ has) ▸ List.mem_cons_self) (htail k)
    | cons o as =>
      obtain ⟨rfl, rfl⟩ := List.cons.inj has
      obtain ⟨p₁, p₂, rfl, rfl, h₂⟩ := List.map_eq_append_iff.1 hpre
      obtain ⟨k', p₂, rfl, hk', rfl⟩ := List.map_eq_cons_iff.1 h₂
      obtain rfl : k' = k := Outcome.done.inj hk'
      rw [List.append_assoc, List.cons_append] at hprog
      obtain ⟨rfl, -, rfl⟩ := (List.append_cons_inj_of_notMem hb ha).1 hprog.symm
      refine ⟨rfl, fun l hl => ?_⟩
      rcases List.mem_append.1 hl with hl | hl
      · obtain ⟨l', hl', heq⟩ := List.mem_map.1 hl
        cases heq
        exact List.mem_append_left _ hl'
      · exact absurd hl (htail l)

structure Follows (program : α → List κ) (s : Jobs α κ) : Prop where
  runs : ∀ id j, s.jobs[id]? = some j → Runs (program j.info) (trace id s.history) j.todo
  known : ∀ e ∈ s.history, (s.jobs[e.id]?).map (·.info) = some e.info

variable {program : α → List κ} {s : Jobs α κ}

theorem follows_init : Follows program (init : Jobs α κ) := ⟨by simp [init], by simp [init]⟩

theorem Follows.id_lt (h : Follows program s) {e : Entry α κ} (he : e ∈ s.history) : e.id < s.jobs.length := by
  obtain ⟨j, hj, -⟩ := Option.map_eq_some_iff.1 (h.known e he)
  exact (List.getElem?_eq_some_iff.1 hj).1

theorem trace_of_length_le (h : Follows program s) {id : Nat} (hid : s.jobs.length ≤ id) : trace id s.history = [] := by
  refine List.map_eq_nil_iff.2 (List.filter_eq_nil_iff.2 fun e he => ?_)
  have := h.id_lt he
  simp only [beq_iff_eq]
  omega

theorem Follows.start (h : Follows program s) {info : α} {k : κ} {todo : List κ} (hp : program info = k :: todo) :
    Follows program (s.start info k todo) where
  runs id j hj := by
    simp only [Jobs.start, trace_append, trace_singleton]
    rcases Nat.lt_trichotomy id s.jobs.length with hid | rfl | hid
    · rw [Jobs.start, List.getElem?_append_left hid] at hj
      rw [if_neg (by omega), List.append_nil]
      exact h.runs id j hj
    · rw [Jobs.start, List.getElem?_concat_length, Option.some.injEq] at hj
      subst hj
      rw [trace_of_length_le h (Nat.le_refl _), if_pos rfl]
      exact @Runs.going _ (program info) [k] todo hp.symm
    · rw [Jobs.start, List.getElem?_eq_none (by simp; omega)] at hj
      cases hj
  known e he := by
    simp only [Jobs.start, List.mem_append, List.mem_singleton] at he ⊢
    rcases he with he | rfl
    · rw [List.getElem?_append_left (h.id_lt he)]
      exact h.known e he
    · simp

/-- Only the job that moves changes, and what it is about stays. -/
theorem Follows.step (h : Follows program s) {id : Nat} {j : Job α κ} (hj : s.jobs[id]? = some j) {o : Outcome κ}
    {todo : List κ} (hr : Runs (program j.info) (trace id s.history ++ [o]) todo) :
    Follows program ⟨s.jobs.set id { j with todo := todo }, s.history ++ [⟨id, j.info, o⟩]⟩ where
  runs id' j' hj' := by
    rw [trace_append, trace_singleton]
    rw [List.getElem?_set] at hj'
    split at hj'
    · rename_i hid
      subst hid
      split at hj' <;> cases hj'
      simpa using hr
    · rename_i hid
      simp only [hid, if_false, List.append_nil]
      exact h.runs id' j' hj'
  known e he := by
    have hlt := (List.getElem?_eq_some_iff.1 hj).1
    simp only [List.mem_append, List.mem_singleton] at he
    rw [List.getElem?_set]
    rcases he with he | rfl
    · split
      · rename_i hid
        have := h.known e he
        rw [← hid, hj] at this
        simpa [hlt] using this
      · exact h.known e he
    · simp [hlt]

theorem Follows.take [DecidableEq κ] (h : Follows program s) {id : Nat} {j : Job α κ} {k : κ}
    (hj : s.next id k = some j) : Follows program (s.take id j k) := by
  obtain ⟨hget, rest, hrest⟩ := next_some hj
  apply h.step hget
  have := h.runs id j hget
  rw [hrest] at this ⊢
  exact this.take

theorem Follows.fail [DecidableEq κ] (h : Follows program s) {id : Nat} {j : Job α κ} {k : κ}
    (hj : s.next id k = some j) : Follows program (s.fail id j k) := by
  obtain ⟨hget, rest, hrest⟩ := next_some hj
  apply h.step hget
  have := h.runs id j hget
  rw [hrest] at this
  exact this.fail

/-- What happened to a job before it took a step that its program has once, and what may happen after. -/
theorem Follows.around (h : Follows program s) {pre post : List (Entry α κ)} {id : Nat} {info : α} {k : κ}
    {before after : List κ} (hsplit : s.history = pre ++ ⟨id, info, .done k⟩ :: post)
    (hp : program info = before ++ k :: after) (hb : k ∉ before) (ha : k ∉ after) :
    trace id pre = before.map .done ∧ ∀ l, .done l ∈ trace id post → l ∈ after := by
  obtain ⟨j, hj, hinfo⟩ := Option.map_eq_some_iff.1 (h.known ⟨id, info, .done k⟩ (hsplit ▸ by simp))
  have hr := h.runs id j hj
  rw [hinfo, hp] at hr
  apply hr.split hb ha
  rw [hsplit, ← List.singleton_append, trace_append, trace_append, trace_singleton, if_pos rfl]
  rfl

/-- In no part of the history a job takes a step more often than its program has it. -/
theorem Follows.count_le [DecidableEq κ] (h : Follows program s) {e : Entry α κ} (he : e ∈ s.history)
    {part : List (Entry α κ)} (hpart : part.Sublist s.history) (k : κ) :
    (trace e.id part).count (.done k) ≤ (program e.info).count k := by
  obtain ⟨j, hj, hinfo⟩ := Option.map_eq_some_iff.1 (h.known e he)
  exact hinfo ▸ Nat.le_trans (((hpart.filter _).map _).count_le _) ((h.runs e.id j hj).count_le k)

section Order
variable [DecidableEq κ]

omit [DecidableEq κ] in
/-- Nothing happens to a job before its first step. -/
theorem Follows.first (h : Follows program s) {pre post : List (Entry α κ)} {id : Nat} {info : α} {b : κ}
    {todo : List κ} (hsplit : s.history = pre ++ ⟨id, info, .done b⟩ :: post) (hp : program info = b :: todo)
    (hb : b ∉ todo) : trace id pre = [] :=
  (h.around hsplit (show program info = [] ++ b :: todo from hp) List.not_mem_nil hb).1

/-- A job that took a step before another one started took it first. -/
theorem Follows.took_before (h : Follows program s) {pre post : List (Entry α κ)} {x y : Nat × α} {b k : κ}
    {todo : List κ} (hsplit : s.history = pre ++ ⟨y.1, y.2, .done b⟩ :: post) (hp : program y.2 = b :: todo)
    (hb : b ∉ todo) (hx : x ∈ took k pre) (hy : y ∈ took k s.history) : [x, y].Sublist (took k s.history) := by
  have hnot : y ∉ took k pre := fun hm => by
    have := mem_trace.2 ⟨y.2, mem_took.1 hm⟩
    rw [h.first hsplit hp hb] at this
    cases this
  rw [hsplit, took_append] at hy ⊢
  have hy' := (List.mem_append.1 hy).resolve_left hnot
  exact (List.singleton_sublist.2 hx).append (List.singleton_sublist.2 hy')

variable [DecidableEq α]

theorem count_took {history : List (Entry α κ)} {x : Nat × α} (hx : ∀ e ∈ history, e.id = x.1 → e.info = x.2)
    (k : κ) : (took k history).count x = (trace x.1 history).count (.done k) := by
  induction history with
  | nil => rfl
  | cons e history ih =>
    have ih := ih fun d hd => hx d (List.mem_cons_of_mem _ hd)
    rw [← List.singleton_append, took_append, trace_append, trace_singleton, List.count_append, List.count_append, ih]
    congr 1
    obtain ⟨id, info, o⟩ := e
    by_cases hid : id = x.1
    · have hinfo : info = x.2 := hx _ List.mem_cons_self hid
      subst hid hinfo
      by_cases ho : o = .done k <;> simp [took, ho]
    · have hne : (id, info) ≠ x := fun he => hid (congrArg Prod.fst he)
      by_cases ho : o = .done k <;> simp [took, ho, hid, hne]

/-- How often a job took a step, when it is done and nothing failed. -/
theorem Follows.count_took (h : Follows program s) (hd : s.AllDone) (hf : ∀ e ∈ s.history, ∀ k, e.outcome ≠ .failed k)
    (x : Nat × α) (k : κ) :
    (took k s.history).count x =
      if s.jobs[x.1]?.map (·.info) = some x.2 then (program x.2).count k else 0 := by
  split
  · rename_i hx
    obtain ⟨j, hj, hinfo⟩ := Option.map_eq_some_iff.1 hx
    have htodo : j.todo = [] := hd j (List.mem_of_getElem? hj)
    have hr := h.runs x.1 j hj
    rw [htodo, hinfo] at hr
    have htr : trace x.1 s.history = (program x.2).map .done := hr.complete fun k hm => by
      obtain ⟨info, hmem⟩ := mem_trace.1 hm
      exact hf _ hmem k rfl
    rw [Jobs.count_took (fun e he hid => ?_), htr, List.count_map_of_injective]
    · exact fun a b hab => Outcome.done.inj hab
    · have := h.known e he
      rw [hid, hx] at this
      exact (Option.some.inj this).symm
  · rename_i hx
    refine List.count_eq_zero.2 fun hm => hx ?_
    exact h.known _ (mem_took.1 hm)

/-- When all jobs are done and nothing failed, two steps that each program has equally often were taken
by the same jobs. -/
theorem Follows.took_perm (h : Follows program s) (hd : s.AllDone)
    (hf : ∀ e ∈ s.history, ∀ k, e.outcome ≠ .failed k) {k l : κ}
    (hkl : ∀ info, (program info).count k = (program info).count l) :
    (took k s.history).Perm (took l s.history) :=
  List.perm_iff_count.2 fun x => by rw [h.count_took hd hf, h.count_took hd hf, hkl]

/-- No job started before the others were done: only the last one has steps left, and the history
goes from job to job. -/
structure Sequential (s : Jobs α κ) : Prop where
  last : ∀ id j, s.jobs[id]? = some j → j.todo ≠ [] → id + 1 = s.jobs.length
  mono : s.history.Pairwise fun a b => a.id ≤ b.id

omit [DecidableEq κ] [DecidableEq α] in
theorem sequential_init : Sequential (init : Jobs α κ) := ⟨by simp [init], by simp [init]⟩

omit [DecidableEq κ] [DecidableEq α] in
theorem Sequential.start (hs : Sequential s) (h : Follows program s) (hd : s.AllDone) (info : α) (k : κ)
    (todo : List κ) : Sequential (s.start info k todo) where
  last id j hj htodo := by
    rw [Jobs.start, List.getElem?_append] at hj
    split at hj
    · exact absurd (hd j (List.mem_of_getElem? hj)) htodo
    · rename_i hid
      have := (List.getElem?_eq_some_iff.1 hj).1
      simp only [Jobs.start, List.length_append, List.length_singleton] at this ⊢
      omega
  mono := by
    refine List.pairwise_append.2 ⟨hs.mono, List.pairwise_singleton _ _, fun a ha b hb => ?_⟩
    obtain rfl := List.mem_singleton.1 hb
    exact Nat.le_of_lt (h.id_lt ha)

omit [DecidableEq κ] [DecidableEq α] in
theorem Sequential.step (hs : Sequential s) (h : Follows program s) {id : Nat} {j : Job α κ}
    (hj : s.jobs[id]? = some j) (hne : j.todo ≠ []) (o : Outcome κ) (todo : List κ) :
    Sequential (⟨s.jobs.set id { j with todo := todo }, s.history ++ [⟨id, j.info, o⟩]⟩ : Jobs α κ) where
  last id' j' hj' htodo := by
    rw [List.length_set]
    rw [List.getElem?_set] at hj'
    split at hj'
    · rename_i hid
      exact hid ▸ hs.last id j hj hne
    · exact hs.last id' j' hj' htodo
  mono := by
    refine List.pairwise_append.2 ⟨hs.mono, List.pairwise_singleton _ _, fun a ha b hb => ?_⟩
    obtain rfl := List.mem_singleton.1 hb
    have h1 := h.id_lt ha
    have h2 := hs.last id j hj hne
    show a.id ≤ id
    omega

/-- Then two such steps were taken in the same order. -/
theorem Follows.took_eq (h : Follows program s) (hs : Sequential s) (hd : s.AllDone)
    (hf : ∀ e ∈ s.history, ∀ k, e.outcome ≠ .failed k) {k l : κ}
    (hkl : ∀ info, (program info).count k = (program info).count l) : took k s.history = took l s.history := by
  have hsorted (m : κ) : (took m s.history).Pairwise fun a b => a.1 ≤ b.1 := by
    apply hs.mono.filterMap _
    intro a b hab x hx y hy
    simp only [Option.ite_none_right_eq_some, Option.some.injEq] at hx hy
    rw [← hx.2, ← hy.2]
    exact hab
  refine (h.took_perm hd hf hkl).eq_of_pairwise (fun x y hx hy hxy hyx => ?_) (hsorted k) (hsorted l)
  have hid : x.1 = y.1 := Nat.le_antisymm hxy hyx
  have h1 := h.known _ (mem_took.1 hx)
  have h2 := h.known _ (mem_took.1 hy)
  rw [hid, h2] at h1
  exact Prod.ext hid (Option.some.inj h1).symm

end Order

end Jobs

end BaseLib
