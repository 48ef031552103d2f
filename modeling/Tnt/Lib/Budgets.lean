import Mathlib.Algebra.BigOperators.Group.List.Basic
import Mathlib.Algebra.GroupWithZero.Nat
import Mathlib.Data.List.Infix
/-!
# What a budget pays for

Every element of a list costs something. The longest end of a list that a budget pays for is what is left when elements
go from the front until the rest is paid for (`LongestEnd.cons`), and where taking elements from the back stops
(`longestEnd_of_stop`).
-/

namespace BaseLib

variable {α : Type*} {cost : α → Nat} {n : Nat} {l t u : List α}

/-- What the elements cost together. -/
def total (cost : α → Nat) (l : List α) : Nat := (l.map cost).sum

@[simp] theorem total_nil : total cost [] = 0 := rfl

@[simp] theorem total_cons (x : α) (l : List α) : total cost (x :: l) = cost x + total cost l := List.sum_cons

@[simp] theorem total_append (l t : List α) : total cost (l ++ t) = total cost l + total cost t := by
  rw [total, List.map_append, List.sum_append]
  rfl

theorem total_le_of_suffix (h : t <:+ l) : total cost t ≤ total cost l := by
  obtain ⟨s, rfl⟩ := h
  rw [total_append]
  exact Nat.le_add_left _ _

/-- `t` is the longest end of `l` that `n` pays for. -/
structure LongestEnd (cost : α → Nat) (n : Nat) (l t : List α) : Prop where
  suffix : t <:+ l
  paid : total cost t ≤ n
  longest : ∀ u, u <:+ l → total cost u ≤ n → u <:+ t

theorem LongestEnd.unique (h : LongestEnd cost n l t) (h' : LongestEnd cost n l u) : t = u :=
  (h'.longest t h.suffix h.paid).eq_of_length_le (h.longest u h'.suffix h'.paid).length_le

theorem longestEnd_self (h : total cost l ≤ n) : LongestEnd cost n l l := ⟨List.suffix_refl l, h, fun _ hu _ => hu⟩

/-- An element in front of what is too much as it is may be left out. -/
theorem LongestEnd.cons {x : α} (hover : n < total cost (x :: l)) (h : LongestEnd cost n l t) :
    LongestEnd cost n (x :: l) t := by
  refine ⟨h.suffix.trans (List.suffix_cons x l), h.paid, fun u hu hpaid => ?_⟩
  rcases List.suffix_cons_iff.1 hu with rfl | hu
  · exact absurd hpaid (Nat.not_le.2 hover)
  · exact h.longest u hu hpaid

/-- Nothing more is paid for, if not the element next to the end. -/
theorem longestEnd_of_stop {x : α} (hpaid : total cost t ≤ n) (hover : n < cost x + total cost t) (s : List α) :
    LongestEnd cost n (s ++ x :: t) t := by
  have hnext : LongestEnd cost n (x :: t) t := (longestEnd_self hpaid).cons (by rwa [total_cons])
  induction s with
  | nil => exact hnext
  | cons y s ih =>
    refine ih.cons ?_
    rw [total_cons, total_append, total_cons]
    omega

/-- What is left over does not pay for the element in front. -/
theorem LongestEnd.next (h : LongestEnd cost n l t) : t = l ∨ ∃ x ∈ l, n < cost x + total cost t := by
  obtain ⟨s, hs⟩ := h.suffix
  rcases List.eq_nil_or_concat s with rfl | ⟨s, x, rfl⟩
  · exact .inl hs
  · rw [List.concat_eq_append, List.append_assoc, List.singleton_append] at hs
    refine .inr ⟨x, hs ▸ List.mem_append_right s List.mem_cons_self, ?_⟩
    by_contra hfits
    rw [Nat.not_lt, ← total_cons] at hfits
    have hlonger := (h.longest (x :: t) ⟨s, hs⟩ hfits).length_le
    rw [List.length_cons] at hlonger
    omega

end BaseLib
