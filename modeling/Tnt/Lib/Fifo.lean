import Mathlib.Data.List.Basic
/-!
# A queue that loses nothing

What went in and what came out are kept beside what is queued, and the structure
carries the proof that no element was lost, doubled or moved. A program's buffer is
shown to be such a queue by giving its pushes and pops.
-/

namespace BaseLib

/-- A queue with its history. -/
@[ext] structure Fifo (α : Type*) where
  input : List α
  output : List α
  queue : List α
  lossless : output ++ queue = input

namespace Fifo

variable {α : Type*}

def empty : Fifo α := ⟨[], [], [], rfl⟩

/-- Put `xs` in, all of it. -/
def push (f : Fifo α) (xs : List α) : Fifo α where
  input := f.input ++ xs
  output := f.output
  queue := f.queue ++ xs
  lossless := by rw [← List.append_assoc, f.lossless]

/-- Take the first `n` out, or as many as there are. -/
def pop (f : Fifo α) (n : Nat) : Fifo α where
  input := f.input
  output := f.output ++ f.queue.take n
  queue := f.queue.drop n
  lossless := by rw [List.append_assoc, List.take_append_drop, f.lossless]

theorem output_isPrefix (f : Fifo α) : f.output <+: f.input := f.lossless ▸ List.prefix_append _ _

/-- What comes out of a queue that is given up in the middle of a pop is a prefix of what went in. -/
theorem output_append_isPrefix (f : Fifo α) {xs : List α} (h : xs <+: f.queue) : f.output ++ xs <+: f.input :=
  f.lossless ▸ (List.prefix_append_right_inj f.output).2 h

end Fifo

end BaseLib
