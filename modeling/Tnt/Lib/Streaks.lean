import Mathlib.Data.List.DropRight
/-!
# Streaks at the end of a history

A history grows at its end. The streak is the longest part of its end whose
elements all satisfy a predicate; what is said of every part of a history that
satisfies it need be shown of the streak alone, whenever the history grows.
-/

namespace BaseLib

variable {α : Type*} {p : α → Bool}

theorem suffix_rtakeWhile_iff {s l : List α} : s <:+ l.rtakeWhile p ↔ s <:+ l ∧ ∀ x ∈ s, p x = true := by
  constructor
  · intro h
    exact ⟨h.trans (List.rtakeWhile_suffix p l), fun x hx => List.mem_rtakeWhile_imp (h.subset hx)⟩
  · rintro ⟨⟨t, rfl⟩, hs⟩
    induction s using List.reverseRecOn with
    | nil => exact List.nil_suffix
    | append_singleton s x ih =>
      obtain ⟨hs, hx⟩ := List.forall_mem_append.1 hs
      rw [← List.append_assoc, List.rtakeWhile_concat_pos p (t ++ s) x (hx x (List.mem_singleton_self x))]
      obtain ⟨u, hu⟩ := ih hs
      exact ⟨u, by rw [← List.append_assoc, hu]⟩

/-- The length of the streak at the end. -/
def streak (p : α → Bool) (l : List α) : Nat := (l.rtakeWhile p).length

@[simp] theorem streak_nil : streak p [] = 0 := by simp [streak]

theorem streak_concat (l : List α) (x : α) : streak p (l ++ [x]) = if p x = true then streak p l + 1 else 0 := by
  unfold streak
  rw [List.rtakeWhile_concat]
  split
  · rw [List.length_append, List.length_singleton]
  · rfl

/-- Somewhere, `k` elements in a row satisfy `p`. -/
def InARow (k : Nat) (p : α → Bool) (l : List α) : Prop := ∃ s, s <:+: l ∧ s.length = k ∧ ∀ x ∈ s, p x = true

theorem not_inARow_nil {k : Nat} (hk : 0 < k) : ¬ InARow k p [] := by
  rintro ⟨s, hs, rfl, -⟩
  obtain rfl := List.infix_nil.1 hs
  exact Nat.lt_irrefl 0 hk

theorem inARow_of_le_streak {k : Nat} {l : List α} (h : k ≤ streak p l) : InARow k p l := by
  -- The last `k` elements of the streak.
  have hsuf := List.drop_suffix (streak p l - k) (l.rtakeWhile p)
  obtain ⟨hs, hp⟩ := suffix_rtakeWhile_iff.1 hsuf
  refine ⟨_, hs.isInfix, ?_, hp⟩
  rw [List.length_drop]
  unfold streak at h ⊢
  omega

theorem inARow_concat {k : Nat} {l : List α} {x : α} :
    InARow k p (l ++ [x]) ↔ InARow k p l ∨ k ≤ streak p (l ++ [x]) := by
  constructor
  · rintro ⟨s, hs, rfl, hp⟩
    rcases List.infix_concat_iff.1 hs with hs | hs
    · exact .inr (suffix_rtakeWhile_iff.2 ⟨hs, hp⟩).length_le
    · exact .inl ⟨s, hs, rfl, hp⟩
  · rintro (⟨s, hs, hk, hp⟩ | h)
    · exact ⟨s, hs.trans (List.prefix_append l [x]).isInfix, hk, hp⟩
    · exact inARow_of_le_streak h

/-- Of the parts of a history that satisfy `p`, none is larger than the bound, if the streak never was. -/
theorem countP_infix_concat {q : α → Bool} {k : Nat} {l : List α} {x : α}
    (h : ∀ s, s <:+: l → (∀ y ∈ s, p y = true) → s.countP q ≤ k) (hx : ((l ++ [x]).rtakeWhile p).countP q ≤ k) :
    ∀ s, s <:+: l ++ [x] → (∀ y ∈ s, p y = true) → s.countP q ≤ k := by
  intro s hs hp
  rcases List.infix_concat_iff.1 hs with hs | hs
  · exact ((suffix_rtakeWhile_iff.2 ⟨hs, hp⟩).sublist.countP_le).trans hx
  · exact h s hs hp

end BaseLib
