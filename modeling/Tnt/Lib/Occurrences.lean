import Mathlib.Data.List.Infix
import Mathlib.Order.Bounds.Basic
/-!
# Occurrences from left to right

A search finds the first hit, goes on behind it, and so takes a text apart into
gaps and segments. What is put around the segments can be taken off again.
-/

namespace BaseLib

/-- The starts that a search from `k` on finds: each is the least hit behind the segment of length `n` before it. -/
inductive LeftToRight (hit : Nat → Prop) (n : Nat) : Nat → List Nat → Prop
  | done {k : Nat} : (∀ i, k ≤ i → ¬ hit i) → LeftToRight hit n k []
  | next {k i : Nat} {starts : List Nat} :
    IsLeast {i | k ≤ i ∧ hit i} i → LeftToRight hit n (i + n) starts → LeftToRight hit n k (i :: starts)

theorem LeftToRight.ne_nil {hit : Nat → Prop} {n k i : Nat} {starts : List Nat} (h : LeftToRight hit n k starts)
    (hi : k ≤ i) (hhit : hit i) : starts ≠ [] := by
  rintro rfl
  cases h with
  | done hnone => exact hnone i hi hhit

variable {α : Type*}

/-- A text taken apart: each segment behind its gap, and what is behind the last of them. -/
structure Segments (α : Type*) where
  parts : List (List α × List α)
  tail : List α

namespace Segments

def text (s : Segments α) : List α := s.parts.flatMap (fun (gap, segment) => gap ++ segment) ++ s.tail

/-- The text with `before` and `after` around each segment. -/
def marked (s : Segments α) (before after : List α) : List α :=
  s.parts.flatMap (fun (gap, segment) => gap ++ before ++ segment ++ after) ++ s.tail

/-- Where the segments begin, if the text begins at `k`. -/
def startsFrom (k : Nat) : List (List α × List α) → List Nat
  | [] => []
  | (gap, segment) :: parts => (k + gap.length) :: startsFrom (k + gap.length + segment.length) parts

def starts (s : Segments α) : List Nat := startsFrom 0 s.parts

/-- One more segment in front. -/
def cons (gap segment : List α) (s : Segments α) : Segments α := { s with parts := (gap, segment) :: s.parts }

@[simp] theorem text_cons (gap segment : List α) (s : Segments α) :
    (s.cons gap segment).text = gap ++ segment ++ s.text := by simp [text, cons]

@[simp] theorem marked_cons (gap segment before after : List α) (s : Segments α) :
    (s.cons gap segment).marked before after = gap ++ before ++ segment ++ after ++ s.marked before after := by
  simp [marked, cons]

theorem parts_ne_nil {s : Segments α} (h : s.starts ≠ []) : s.parts ≠ [] := by
  intro hnil
  rw [starts, hnil] at h
  exact h rfl

end Segments

end BaseLib
