import Mathlib.Data.List.Infix
/-!
# What lists begin with together

The longest front that some lists share, and when it is a front of a kind that may end
in some places only.
-/

namespace BaseLib

variable {α : Type*}

section
variable [DecidableEq α]

/-- What two lists begin with. -/
def shared : List α → List α → List α
  | a :: l, b :: l' => if a = b then a :: shared l l' else []
  | _, _ => []

/-- What all the lists begin with. -/
def sharedFront : List (List α) → List α
  | [] => []
  | l :: ls => ls.foldl shared l

theorem isPrefix_shared_iff {t l l' : List α} : t <+: shared l l' ↔ t <+: l ∧ t <+: l' := by
  induction l generalizing t l' with
  | nil => simpa [shared] using fun h => h ▸ List.nil_prefix
  | cons a l ih =>
    cases l' with
    | nil => simpa [shared] using fun h => h ▸ List.nil_prefix
    | cons b l' =>
      cases t with
      | nil => simp
      | cons c t =>
        rw [shared]
        split
        · rename_i hab
          simp only [List.cons_prefix_cons, ih, ← hab]
          tauto
        · rename_i hab
          simp only [List.prefix_nil, reduceCtorEq, List.cons_prefix_cons, false_iff, not_and]
          rintro ⟨rfl, -⟩ rfl
          exact absurd rfl hab

theorem isPrefix_foldl_shared_iff {t l : List α} {ls : List (List α)} :
    t <+: ls.foldl shared l ↔ t <+: l ∧ ∀ l' ∈ ls, t <+: l' := by
  induction ls generalizing l with
  | nil => simp
  | cons l' ls ih => rw [List.foldl_cons, ih, isPrefix_shared_iff, and_assoc, List.forall_mem_cons]

theorem isPrefix_sharedFront_iff {t : List α} {ls : List (List α)} (h : ls ≠ []) :
    t <+: sharedFront ls ↔ ∀ l ∈ ls, t <+: l := by
  cases ls with
  | nil => exact absurd rfl h
  | cons l ls => rw [sharedFront, isPrefix_foldl_shared_iff, List.forall_mem_cons]

theorem sharedFront_isPrefix {l : List α} {ls : List (List α)} (h : l ∈ ls) : sharedFront ls <+: l :=
  (isPrefix_sharedFront_iff (List.ne_nil_of_mem h)).1 (List.prefix_refl _) l h

theorem sharedFront_concat {ls : List (List α)} (h : ls ≠ []) (l : List α) :
    sharedFront (ls ++ [l]) = shared (sharedFront ls) l := by
  cases ls with
  | nil => exact absurd rfl h
  | cons l' ls => rw [List.cons_append, sharedFront, List.foldl_concat, sharedFront]

end

/-- The longest of the good fronts that all the lists share. -/
structure LongestShared (good : List α → Prop) (ls : List (List α)) (t : List α) : Prop where
  isGood : good t
  isPrefix : ∀ l ∈ ls, t <+: l
  longest : ∀ t', good t' → (∀ l ∈ ls, t' <+: l) → t' <+: t

/-- The lists do not part in front of an element inside something: one that all of them come to together, they share. -/
def AgreeInside (inside : α → Prop) (ls : List (List α)) : Prop :=
  ∀ l ∈ ls, ∀ n a, l[n]? = some a → inside a → (∀ l' ∈ ls, l.take n <+: l') → ∀ l' ∈ ls, l.take (n + 1) <+: l'

theorem agreeInside_of_none {inside : α → Prop} {ls : List (List α)} (h : ∀ l ∈ ls, ∀ a ∈ l, ¬ inside a) :
    AgreeInside inside ls :=
  fun l hl _ a ha hinside => absurd hinside (h l hl a (List.mem_of_getElem? ha))

section
variable [DecidableEq α] {good : List α → Prop} {ls : List (List α)}

theorem longestShared_iff (h : ls ≠ []) : LongestShared good ls (sharedFront ls) ↔ good (sharedFront ls) := by
  constructor
  · exact LongestShared.isGood
  · intro hgood
    exact ⟨hgood, fun l hl => sharedFront_isPrefix hl, fun t _ ht => (isPrefix_sharedFront_iff h).2 ht⟩

/-- Where a front is good if it does not end in front of an element inside something. -/
theorem good_sharedFront_iff {inside : α → Prop} (h : ls ≠ [])
    (hcut : ∀ l ∈ ls, ∀ n, good (l.take n) ↔ ∀ a, l[n]? = some a → ¬ inside a) :
    good (sharedFront ls) ↔ AgreeInside inside ls := by
  constructor
  · intro hgood l hl n a ha hinside hn
    have hfront := List.prefix_iff_eq_take.1 (sharedFront_isPrefix hl)
    have hlen := ((isPrefix_sharedFront_iff h).2 hn).length_le
    rw [List.length_take_of_le (List.getElem?_eq_some_iff.1 ha).1.le] at hlen
    have hne : n ≠ (sharedFront ls).length := by
      rintro rfl
      rw [hfront] at hgood
      exact (hcut l hl _).1 hgood a ha hinside
    rw [← isPrefix_sharedFront_iff h, hfront]
    exact List.take_prefix_take_left (by omega)
  · intro hagree
    obtain ⟨l, hl⟩ := List.exists_mem_of_ne_nil ls h
    have hfront := List.prefix_iff_eq_take.1 (sharedFront_isPrefix hl)
    rw [hfront, hcut l hl]
    intro a ha hinside
    -- The next element would be shared, too.
    have hnext := hagree l hl _ a ha hinside fun l' hl' => hfront ▸ sharedFront_isPrefix hl'
    have hlen := ((isPrefix_sharedFront_iff h).2 hnext).length_le
    rw [List.length_take_of_le (List.getElem?_eq_some_iff.1 ha).1] at hlen
    omega

end

end BaseLib
