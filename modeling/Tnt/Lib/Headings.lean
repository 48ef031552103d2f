import Mathlib.Data.List.Basic
/-!
# Lists with headings

A list is laid out in rows: one for each item, and one for a heading in front of
every run of items with the same key.
-/

namespace BaseLib

variable {α δ : Type*} [DecidableEq δ] (key : α → δ)

/-- The rows an item takes below one with the key `last`. -/
def itemRows (last : Option δ) (x : α) : Nat := if some (key x) = last then 1 else 2

/-- The rows of a list. The item above it has the key `last`. -/
def rows : Option δ → List α → Nat
  | _, [] => 0
  | last, x :: xs => itemRows key last x + rows (some (key x)) xs

/-- The items that fit, where `row` rows of `height` are taken. -/
def layOut (height : Nat) : Nat → Option δ → List α → List α
  | _, _, [] => []
  | row, last, x :: xs =>
    if row + itemRows key last x ≤ height then x :: layOut height (row + itemRows key last x) (some (key x)) xs
    else []

variable {key} {last : Option δ} {l : List α} {height row i k : Nat}

theorem one_le_itemRows (last : Option δ) (x : α) : 1 ≤ itemRows key last x := by
  unfold itemRows
  split <;> omega

theorem itemRows_le_two (last : Option δ) (x : α) : itemRows key last x ≤ 2 := by
  unfold itemRows
  split <;> omega

@[simp] theorem rows_nil : rows key last [] = 0 := rfl

theorem rows_cons (x : α) (xs : List α) :
    rows key last (x :: xs) = itemRows key last x + rows key (some (key x)) xs := rfl

theorem length_le_rows (last : Option δ) (l : List α) : l.length ≤ rows key last l := by
  induction l generalizing last with
  | nil => exact Nat.le_refl 0
  | cons x xs ih =>
    have hitem : 1 ≤ itemRows key last x := one_le_itemRows last x
    have hrest := ih (some (key x))
    rw [rows_cons, List.length_cons]
    omega

theorem rows_le_two_mul (last : Option δ) (l : List α) : rows key last l ≤ 2 * l.length := by
  induction l generalizing last with
  | nil => exact Nat.zero_le _
  | cons x xs ih =>
    have hitem : itemRows key last x ≤ 2 := itemRows_le_two last x
    have hrest := ih (some (key x))
    rw [rows_cons, List.length_cons]
    omega

/-- At most the first heading depends on what is above. -/
theorem rows_le_succ (last last' : Option δ) (l : List α) : rows key last l ≤ rows key last' l + 1 := by
  cases l with
  | nil => exact Nat.zero_le _
  | cons x xs =>
    have hle : itemRows key last x ≤ 2 := itemRows_le_two last x
    have hge : 1 ≤ itemRows key last' x := one_le_itemRows last' x
    rw [rows_cons, rows_cons]
    omega

theorem rows_take_le (last : Option δ) (l : List α) (i : Nat) : rows key last (l.take i) ≤ rows key last l := by
  induction l generalizing last i with
  | nil => simp
  | cons x xs ih =>
    cases i with
    | zero => exact Nat.zero_le _
    | succ i =>
      rw [List.take_succ_cons, rows_cons, rows_cons]
      exact Nat.add_le_add_left (ih _ i) _

/-- Without its first items a list takes no more rows, although a heading may be added. -/
theorem rows_drop_le (l : List α) (k : Nat) : rows key none (l.drop k) ≤ rows key none l := by
  induction l generalizing k with
  | nil => simp
  | cons x xs ih =>
    cases k with
    | zero => exact Nat.le_refl _
    | succ k =>
      have hfirst : rows key none xs ≤ rows key (some (key x)) xs + 1 := rows_le_succ _ _ xs
      have hcons : rows key none (x :: xs) = 2 + rows key (some (key x)) xs := rfl
      have := ih k
      rw [List.drop_succ_cons]
      omega

/-- A list is laid out in full where its rows fit. -/
theorem layOut_eq_self_iff (hl : l ≠ []) : layOut key height row last l = l ↔ row + rows key last l ≤ height := by
  induction l generalizing row last with
  | nil => exact absurd rfl hl
  | cons x xs ih =>
    rw [layOut, rows_cons, ← Nat.add_assoc]
    split
    · rename_i hfits
      rw [List.cons_inj_right]
      rcases eq_or_ne xs [] with rfl | hxs
      · exact iff_of_true rfl hfits
      · exact ih hxs
    · rename_i hfull
      exact iff_of_false (List.cons_ne_nil x xs).symm (by omega)

/-- The first item is laid out where there is room for it and its heading. -/
theorem layOut_ne_nil_iff (hl : l ≠ []) : layOut key height row none l ≠ [] ↔ row + 2 ≤ height := by
  obtain ⟨x, xs, rfl⟩ := List.exists_cons_of_ne_nil hl
  have hitem : itemRows key none x = 2 := if_neg (Option.some_ne_none _)
  rw [layOut, hitem]
  split
  · rename_i hfits
    exact iff_of_true (List.cons_ne_nil _ _) hfits
  · rename_i hfull
    exact iff_of_false (not_not.2 rfl) hfull

theorem head?_layOut (hheight : row + 2 ≤ height) : (layOut key height row none l).head? = l.head? := by
  cases l with
  | nil => rfl
  | cons x xs =>
    have hitem : itemRows key none x = 2 := if_neg (Option.some_ne_none _)
    rw [layOut, hitem, if_pos hheight]
    rfl

/-- A list without items has no rows, and one with items has a row more than items. -/
theorem length_lt_rows (hl : l ≠ []) : l.length < rows key none l := by
  obtain ⟨x, xs, rfl⟩ := List.exists_cons_of_ne_nil hl
  have hitem : itemRows key none x = 2 := if_neg (Option.some_ne_none _)
  have hrest : xs.length ≤ rows key (some (key x)) xs := length_le_rows _ _
  rw [rows_cons, hitem, List.length_cons]
  omega

/-- An item is laid out where the rows up to it fit. -/
theorem getElem?_layOut : (layOut key height row last l)[i]? =
    if row + rows key last (l.take (i + 1)) ≤ height then l[i]? else none := by
  induction l generalizing i row last with
  | nil => simp [layOut]
  | cons x xs ih =>
    rw [List.take_succ_cons, rows_cons, layOut]
    by_cases hfits : row + itemRows key last x ≤ height
    · rw [if_pos hfits]
      cases i with
      | zero =>
        rw [List.take_zero, rows_nil, Nat.add_zero, if_pos hfits]
        rfl
      | succ i => rw [List.getElem?_cons_succ, List.getElem?_cons_succ, ih, Nat.add_assoc]
    · rw [if_neg hfits, if_neg (by omega)]
      rfl

end BaseLib
