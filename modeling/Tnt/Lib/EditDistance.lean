import Mathlib.Data.List.Infix
import Mathlib.Order.Bounds.Basic
import Mathlib.Order.MinMax
/-!
# Edit distance

Two lists are as far apart as the shortest run of edits that takes one to the
other, where an edit inserts, deletes or replaces one element. The distance
satisfies the usual recurrence at the fronts of the lists, and, as edits can be
read backwards, at their ends; the rows of the usual table follow.
-/

namespace BaseLib

variable {α : Type*} {a b c : List α} {m n : Nat}

/-- One element is inserted, deleted or replaced. -/
inductive Edit : List α → List α → Prop
  | insert (u : List α) (x : α) (v : List α) : Edit (u ++ v) (u ++ x :: v)
  | delete (u : List α) (x : α) (v : List α) : Edit (u ++ x :: v) (u ++ v)
  | replace (u : List α) (x y : α) (v : List α) : Edit (u ++ x :: v) (u ++ y :: v)

/-- `n` edits, one after the other. -/
inductive Edits : Nat → List α → List α → Prop
  | none (a : List α) : Edits 0 a a
  | cons {n : Nat} {a b c : List α} : Edit a b → Edits n b c → Edits (n + 1) a c

/-- The least number of edits from one list to the other. -/
def EditsAway (a b : List α) (n : Nat) : Prop := IsLeast {n | Edits n a b} n

theorem EditsAway.unique (hm : EditsAway a b m) (hn : EditsAway a b n) : m = n := IsLeast.unique hm hn

/-! ## Edits -/

theorem Edit.cons (x : α) (h : Edit a b) : Edit (x :: a) (x :: b) := by
  cases h with
  | insert u y v => exact .insert (x :: u) y v
  | delete u y v => exact .delete (x :: u) y v
  | replace u y z v => exact .replace (x :: u) y z v

theorem Edit.reverse (h : Edit a b) : Edit a.reverse b.reverse := by
  cases h with
  | insert u x v => simpa using Edit.insert v.reverse x u.reverse
  | delete u x v => simpa using Edit.delete v.reverse x u.reverse
  | replace u x y v => simpa using Edit.replace v.reverse x y u.reverse

theorem Edit.length_le (h : Edit a b) : a.length ≤ b.length + 1 := by
  cases h <;> simp only [List.length_append, List.length_cons] <;> omega

theorem Edits.under (x : α) (h : Edits n a b) : Edits n (x :: a) (x :: b) := by
  induction h with
  | none a => exact .none _
  | cons hedit _ ih => exact .cons (hedit.cons x) ih

theorem Edits.reverse (h : Edits n a b) : Edits n a.reverse b.reverse := by
  induction h with
  | none a => exact .none _
  | cons hedit _ ih => exact .cons hedit.reverse ih

theorem Edits.length_le (h : Edits n a b) : a.length ≤ b.length + n := by
  induction h with
  | none a => exact Nat.le_refl _
  | cons hedit _ ih =>
    have := hedit.length_le
    omega

theorem edits_reverse : Edits n a.reverse b.reverse ↔ Edits n a b :=
  ⟨fun h => by simpa using h.reverse, Edits.reverse⟩

/-! ## The recurrence -/

variable [DecidableEq α]

/-- The distance, by the fronts of the two lists. -/
def levenshtein : List α → List α → Nat
  | [], b => b.length
  | _ :: a, [] => a.length + 1
  | x :: a, y :: b =>
    min (min (levenshtein a (y :: b) + 1) (levenshtein (x :: a) b + 1)) (levenshtein a b + if x = y then 0 else 1)
termination_by a b => a.length + b.length

@[simp] theorem levenshtein_nil_left (b : List α) : levenshtein [] b = b.length := by rw [levenshtein]

@[simp] theorem levenshtein_nil_right (a : List α) : levenshtein a [] = a.length := by
  cases a <;> simp [levenshtein]

theorem levenshtein_cons (x y : α) (a b : List α) :
    levenshtein (x :: a) (y :: b) =
      min (min (levenshtein a (y :: b) + 1) (levenshtein (x :: a) b + 1))
        (levenshtein a b + if x = y then 0 else 1) := by
  rw [levenshtein]

theorem levenshtein_cons_left_le (x : α) (a b : List α) : levenshtein (x :: a) b ≤ levenshtein a b + 1 := by
  cases b with
  | nil => simp
  | cons y b =>
    rw [levenshtein_cons]
    omega

theorem levenshtein_le_cons_left (x : α) (a b : List α) : levenshtein a b ≤ levenshtein (x :: a) b + 1 := by
  have hright (y : α) (a b : List α) : levenshtein a (y :: b) ≤ levenshtein a b + 1 := by
    cases a with
    | nil => simp
    | cons x a =>
      rw [levenshtein_cons]
      omega
  induction b with
  | nil =>
    simp only [levenshtein_nil_right, List.length_cons]
    omega
  | cons y b ih =>
    have := hright y a b
    rw [levenshtein_cons]
    omega

theorem levenshtein_cons_replace (x y : α) (a b : List α) : levenshtein (x :: a) b ≤ levenshtein (y :: a) b + 1 := by
  induction b with
  | nil => simp
  | cons z b ih =>
    rw [levenshtein_cons, levenshtein_cons y]
    split <;> split <;> omega

/-- What brings two lists one step closer to every third does so behind the same front. -/
theorem levenshtein_append_le (u : List α) (h : ∀ c, levenshtein a c ≤ levenshtein b c + 1) :
    ∀ c, levenshtein (u ++ a) c ≤ levenshtein (u ++ b) c + 1 := by
  induction u with
  | nil => exact h
  | cons x u ih =>
    intro c
    simp only [List.cons_append]
    induction c with
    | nil => simpa using ih []
    | cons z c ihc =>
      have hdel := ih (z :: c)
      have hboth := ih c
      rw [levenshtein_cons, levenshtein_cons]
      omega

theorem Edit.levenshtein_le (h : Edit a b) (c : List α) : levenshtein a c ≤ levenshtein b c + 1 := by
  cases h with
  | insert u x v => exact levenshtein_append_le u (levenshtein_le_cons_left x v) c
  | delete u x v => exact levenshtein_append_le u (levenshtein_cons_left_le x v) c
  | replace u x y v => exact levenshtein_append_le u (levenshtein_cons_replace x y v) c

@[simp] theorem levenshtein_self (a : List α) : levenshtein a a = 0 := by
  induction a with
  | nil => simp
  | cons x a ih => simp [levenshtein_cons, ih]

/-- No run of edits is shorter. -/
theorem levenshtein_le_of_edits (h : Edits n a b) : levenshtein a b ≤ n := by
  induction h with
  | none a => simp
  | cons hedit _ ih => exact (hedit.levenshtein_le _).trans (Nat.succ_le_succ ih)

/-- The choices of the recurrence are such a run. -/
theorem edits_levenshtein (a b : List α) : Edits (levenshtein a b) a b := by
  induction a, b using levenshtein.induct with
  | case1 b =>
    rw [levenshtein_nil_left]
    induction b with
    | nil => exact .none _
    | cons y b ih => exact .cons (.insert [] y []) (ih.under y)
  | case2 x a =>
    rw [levenshtein_nil_right]
    induction x :: a with
    | nil => exact .none _
    | cons y a ih => exact .cons (.delete [] y a) ih
  | case3 x a y b ihdel ihins ihboth =>
    rw [levenshtein_cons]
    rcases min_choice (min (levenshtein a (y :: b) + 1) (levenshtein (x :: a) b + 1))
      (levenshtein a b + if x = y then 0 else 1) with h | h
    · rw [h]
      rcases min_choice (levenshtein a (y :: b) + 1) (levenshtein (x :: a) b + 1) with h | h
      · rw [h]
        exact .cons (.delete [] x a) ihdel
      · rw [h]
        exact .cons (.insert [] y (x :: a)) (ihins.under y)
    · rw [h]
      split
      · rename_i hxy
        exact hxy ▸ ihboth.under x
      · exact .cons (.replace [] x y a) (ihboth.under y)

theorem editsAway_levenshtein (a b : List α) : EditsAway a b (levenshtein a b) :=
  ⟨edits_levenshtein a b, fun _ => levenshtein_le_of_edits⟩

theorem editsAway_iff : EditsAway a b n ↔ n = levenshtein a b :=
  ⟨fun h => h.unique (editsAway_levenshtein a b), fun h => h ▸ editsAway_levenshtein a b⟩

theorem length_le_levenshtein (a b : List α) : a.length ≤ b.length + levenshtein a b :=
  (edits_levenshtein a b).length_le

theorem levenshtein_le_length (a b : List α) : levenshtein a b ≤ a.length + b.length := by
  induction a with
  | nil => simp
  | cons x a ih =>
    have := levenshtein_cons_left_le x a b
    rw [List.length_cons]
    omega

/-! ## At the ends -/

theorem levenshtein_reverse (a b : List α) : levenshtein a.reverse b.reverse = levenshtein a b :=
  editsAway_iff.1 ⟨edits_reverse.1 (edits_levenshtein _ _), fun _ h => levenshtein_le_of_edits (Edits.reverse h)⟩

/-- The recurrence at the ends of the lists. -/
theorem levenshtein_concat (a b : List α) (x y : α) :
    levenshtein (a ++ [x]) (b ++ [y]) =
      min (min (levenshtein a (b ++ [y]) + 1) (levenshtein (a ++ [x]) b + 1))
        (levenshtein a b + if x = y then 0 else 1) := by
  simp only [← levenshtein_reverse (_ ++ [_]), ← levenshtein_reverse a, List.reverse_append, List.reverse_singleton,
    List.singleton_append, levenshtein_cons]

end BaseLib
