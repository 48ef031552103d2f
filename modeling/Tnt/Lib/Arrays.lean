import Mathlib.Data.List.Basic
/-!
# Arrays with a count

An array of fixed size of which the first `n` cells count. Appending writes the
next cell; an entry is taken out by a loop that shifts the cells behind it down, or by
a move of a block. Each is the list operation of its name on the cells that count.
-/

namespace BaseLib

variable {α : Type*} {a : List α} {n i : Nat}

/-- `for (j = i; j < i + n; j++) a[j] = a[j + 1];` -/
def shiftLoop : Nat → Nat → List α → List α
  | 0, _, a => a
  | n + 1, i, a => shiftLoop n (i + 1) (a[i + 1]?.elim a (a.set i))

/-- `memmove(&a[dst], &a[src], n * sizeof(a[0]))` -/
def memmove (dst src n : Nat) (a : List α) : List α := a.take dst ++ (a.drop src).take n ++ a.drop (dst + n)

@[simp] theorem length_shiftLoop (n i : Nat) (a : List α) : (shiftLoop n i a).length = a.length := by
  induction n generalizing i a with
  | zero => rfl
  | succ n ih =>
    rw [shiftLoop, ih]
    cases a[i + 1]? <;> simp

theorem length_memmove {dst src : Nat} (hdst : dst + n ≤ a.length) (hsrc : src + n ≤ a.length) :
    (memmove dst src n a).length = a.length := by
  simp only [memmove, List.length_append, List.length_take, List.length_drop]
  omega

/-- Cells `i + 1` to `i + n` come to stand one place further down. -/
theorem shiftLoop_eq (h : i + n < a.length) :
    shiftLoop n i a = a.take i ++ (a.drop (i + 1)).take n ++ a.drop (i + n) := by
  induction n generalizing i a with
  | zero => simp [shiftLoop]
  | succ n ih =>
    have hi : i < a.length := by omega
    have hnext : i + 1 < a.length := by omega
    have hfront : (a.set i a[i + 1]).take (i + 1) = a.take i ++ [a[i + 1]] := by
      rw [List.take_succ_eq_append_getElem (by simpa using hi), List.take_set_of_le (Nat.le_refl i),
        List.getElem_set_self]
    have hblock : (a.drop (i + 1)).take (n + 1) = a[i + 1] :: (a.drop (i + 1 + 1)).take n := by
      rw [List.drop_eq_getElem_cons hnext, List.take_succ_cons]
    rw [shiftLoop, List.getElem?_eq_getElem hnext, Option.elim_some, ih (by simp; omega), hfront, hblock,
      List.drop_set_of_lt (by omega), List.drop_set_of_lt (by omega), List.append_assoc, List.append_assoc,
      List.append_assoc, List.singleton_append, List.cons_append, Nat.add_assoc i 1 n, Nat.add_comm 1 n]

/-- Writing the next cell appends. -/
theorem take_set_count (h : n < a.length) (x : α) : (a.set n x).take (n + 1) = a.take n ++ [x] := by
  rw [List.take_succ_eq_append_getElem (by simpa using h), List.take_set_of_le (Nat.le_refl n), List.getElem_set_self]

/-- Shifting down to an entry takes it out. -/
theorem take_shiftLoop (hi : i < n) (hn : n ≤ a.length) :
    (shiftLoop (n - 1 - i) i a).take (n - 1) = (a.take n).eraseIdx i := by
  have hlen : (a.take i ++ (a.drop (i + 1)).take (n - 1 - i)).length = n - 1 := by
    simp only [List.length_append, List.length_take, List.length_drop]
    omega
  rw [shiftLoop_eq (by omega), List.take_left' hlen, List.eraseIdx_eq_take_drop_succ, List.take_take,
    List.drop_take, Nat.min_eq_left (Nat.le_of_lt hi), Nat.sub_sub, Nat.add_comm 1 i]

/-- Moving all entries but the first to the front drops it. -/
theorem take_memmove (h : n ≤ a.length) : (memmove 0 1 (n - 1) a).take (n - 1) = (a.take n).tail := by
  have hlen : ((a.drop 1).take (n - 1)).length = n - 1 := by
    rw [List.length_take, List.length_drop]
    omega
  rw [memmove, List.take_zero, List.nil_append, List.take_left' hlen, ← List.drop_one, List.drop_take]

/-- The first entry of its value is the one in place `i`. -/
theorem erase_eq_eraseIdx_of_first [DecidableEq α] {l : List α} {x : α} (hx : l[i]? = some x)
    (hfirst : ∀ y ∈ l.take i, y ≠ x) : l.erase x = l.eraseIdx i := by
  obtain ⟨hi, rfl⟩ := List.getElem?_eq_some_iff.1 hx
  have hsplit : l = l.take i ++ l[i] :: l.drop (i + 1) := by
    rw [← List.drop_eq_getElem_cons hi, List.take_append_drop]
  have hnot : l[i] ∉ l.take i := fun hm => hfirst _ hm rfl
  calc l.erase l[i]
    _ = (l.take i ++ l[i] :: l.drop (i + 1)).erase l[i] := congrArg (List.erase · l[i]) hsplit
    _ = l.take i ++ l.drop (i + 1) := by rw [List.erase_append_right _ hnot, List.erase_cons_head]
    _ = l.eraseIdx i := (List.eraseIdx_eq_take_drop_succ _ _).symm

end BaseLib
