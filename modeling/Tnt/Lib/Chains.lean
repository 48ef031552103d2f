import Mathlib.Data.List.Nodup
import Mathlib.Logic.Function.Basic
/-!
# Queues of linked cells

A heap gives the cell at an address, if one is allocated there. `Chain` says which
cells are met from a pointer on, and `Linked` that a head and a tail pointer hold
such a queue. A cell is linked in at the tail and taken off at the head; a write
elsewhere leaves the chain as it is.
-/

namespace BaseLib

/-- A cell, with the address of the next one. -/
structure Cell (α : Type*) where
  val : α
  next : Option Nat

abbrev Heap (α : Type*) := Nat → Option (Cell α)

variable {α : Type*}

/-- `p->next = q` -/
def Heap.setNext (heap : Heap α) (p : Nat) (q : Option Nat) : Heap α :=
  Function.update heap p ((heap p).map fun cell => { cell with next := q })

/-- A pointer is written to a cell that is there. -/
theorem setNext_eq_none {heap : Heap α} {p a : Nat} {q : Option Nat} : heap.setNext p q a = none ↔ heap a = none := by
  unfold Heap.setNext
  by_cases hap : a = p
  · subst hap
    rw [Function.update_self, Option.map_eq_none_iff]
  · rw [Function.update_of_ne hap]

/-- From `p` on, these are the cells up to NULL. -/
def Chain (heap : Heap α) : Option Nat → List (Nat × α) → Prop
  | p, [] => p = none
  | p, (a, x) :: cells => p = some a ∧ ∃ next, heap a = some ⟨x, next⟩ ∧ Chain heap next cells

variable {heap heap' : Heap α} {p : Option Nat} {cells : List (Nat × α)} {a : Nat} {x : α}

@[simp] theorem chain_nil : Chain heap p [] ↔ p = none := Iff.rfl

@[simp] theorem chain_cons :
    Chain heap p ((a, x) :: cells) ↔ p = some a ∧ ∃ next, heap a = some ⟨x, next⟩ ∧ Chain heap next cells := Iff.rfl

theorem Chain.eq_nil (h : Chain heap none cells) : cells = [] := by
  cases cells with
  | nil => rfl
  | cons cell cells => cases h.1

/-- A chain only depends on its own cells. -/
theorem Chain.congr (h : Chain heap p cells) (hsame : ∀ a ∈ cells.map Prod.fst, heap' a = heap a) :
    Chain heap' p cells := by
  induction cells generalizing p with
  | nil => exact h
  | cons cell cells ih =>
    obtain ⟨hp, next, hcell, hrest⟩ := h
    refine ⟨hp, next, ?_, ih hrest fun a ha => hsame a (List.mem_cons_of_mem _ ha)⟩
    rw [hsame cell.1 List.mem_cons_self]
    exact hcell

theorem Chain.update (h : Chain heap p cells) (ha : a ∉ cells.map Prod.fst) (cell : Option (Cell α)) :
    Chain (Function.update heap a cell) p cells := by
  apply h.congr
  intro b hb
  rw [Function.update_of_ne]
  rintro rfl
  exact ha hb

theorem Chain.allocated (h : Chain heap p cells) (ha : a ∈ cells.map Prod.fst) : heap a ≠ none := by
  induction cells generalizing p with
  | nil => cases ha
  | cons cell cells ih =>
    obtain ⟨-, next, hcell, hrest⟩ := h
    rcases List.mem_cons.1 ha with rfl | ha
    · rw [hcell]
      exact Option.some_ne_none _
    · exact ih hrest ha

/-- Link a cell behind the last one. -/
theorem Chain.snoc {b : Nat} {y : α} (h : Chain heap p (cells ++ [(b, y)]))
    (hnodup : ((cells ++ [(b, y)]).map Prod.fst).Nodup) (ha : heap a = some ⟨x, none⟩)
    (hfresh : a ∉ (cells ++ [(b, y)]).map Prod.fst) :
    Chain (heap.setNext b (some a)) p (cells ++ [(b, y), (a, x)]) := by
  induction cells generalizing p with
  | nil =>
    obtain ⟨rfl, next, hcell, -⟩ := h
    have hab : a ≠ b := fun hab => hfresh (by simp [hab])
    refine ⟨rfl, some a, ?_, rfl, none, ?_, rfl⟩
    · rw [Heap.setNext, Function.update_self, hcell]
      rfl
    · rw [Heap.setNext, Function.update_of_ne hab, ha]
  | cons cell cells ih =>
    obtain ⟨rfl, next, hcell, hrest⟩ := h
    obtain ⟨hnotin, hnodup⟩ := List.nodup_cons.1 hnodup
    have hne : cell.1 ≠ b := fun hcb => hnotin (by simp [hcb])
    refine ⟨rfl, next, ?_, ih hrest hnodup fun hm => hfresh (List.mem_cons_of_mem _ hm)⟩
    rw [Heap.setNext, Function.update_of_ne hne, hcell]

/-- The pointers hold a queue of these cells. -/
structure Linked (heap : Heap α) (head tail : Option Nat) (cells : List (Nat × α)) : Prop where
  chain : Chain heap head cells
  tail_eq : tail = cells.getLast?.map Prod.fst
  nodup : (cells.map Prod.fst).Nodup

variable {head tail : Option Nat}

theorem Linked.nil (heap : Heap α) : Linked heap none none [] := ⟨rfl, rfl, List.nodup_nil⟩

theorem Linked.head_none (h : Linked heap head tail cells) : head = none ↔ cells = [] := by
  constructor
  · rintro rfl
    exact h.chain.eq_nil
  · rintro rfl
    exact h.chain

theorem Linked.tail_none (h : Linked heap head tail cells) : tail = none ↔ cells = [] := by
  rw [h.tail_eq, Option.map_eq_none_iff, List.getLast?_eq_none_iff]

/-- A cell at a free address is linked in behind the last one. -/
theorem Linked.append {t : Nat} (h : Linked heap head (some t) cells) (ha : heap a = none) (x : α) :
    Linked (Heap.setNext (Function.update heap a (some ⟨x, none⟩)) t (some a)) head (some a) (cells ++ [(a, x)]) := by
  obtain ⟨hchain, htail, hnodup⟩ := h
  have hfresh : a ∉ cells.map Prod.fst := fun hm => hchain.allocated hm ha
  rcases List.eq_nil_or_concat' cells with rfl | ⟨cells, ⟨b, y⟩, rfl⟩
  · cases htail
  · obtain rfl : t = b := by simpa using htail
    refine ⟨?_, by simp, ?_⟩
    · rw [List.append_assoc]
      exact (hchain.update hfresh _).snoc hnodup (Function.update_self ..) hfresh
    · rw [List.map_append]
      exact hnodup.append (List.nodup_singleton a) (by simpa using hfresh)

/-- The first cell. -/
theorem Linked.singleton (heap : Heap α) (a : Nat) (x : α) :
    Linked (Function.update heap a (some ⟨x, none⟩)) (some a) (some a) [(a, x)] :=
  ⟨⟨rfl, none, Function.update_self .., rfl⟩, rfl, List.nodup_singleton a⟩

/-- The cell at the head is taken off. -/
theorem Linked.pop (h : Linked heap head tail ((a, x) :: cells)) :
    ∃ next, heap a = some ⟨x, next⟩ ∧
      Linked heap next (if next.isNone then none else tail) cells ∧ a ∉ cells.map Prod.fst := by
  obtain ⟨⟨-, next, hcell, hchain⟩, htail, hnodup⟩ := h
  obtain ⟨hnotin, hnodup⟩ := List.nodup_cons.1 hnodup
  refine ⟨next, hcell, ⟨hchain, ?_, hnodup⟩, hnotin⟩
  cases cells with
  | nil => rw [chain_nil.1 hchain]; rfl
  | cons cell cells =>
    obtain ⟨rfl, -⟩ := hchain
    rw [htail, List.getLast?_cons_cons]
    rfl

end BaseLib
