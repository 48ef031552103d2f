import Mathlib.Data.List.Basic
/-!
# Reading from a feed

A feed holds what has arrived and is not read yet. A read gives some of it from the front, at most as much as it asks
for, and something where there is something; how much is up to the feed. What a reader of single elements sees does
not depend on it (`read_one`), nor what one sees that reads on until it has all it asks for (`readExactly_eq`).
-/

namespace BaseLib

structure Feed (α : Type) where
  State : Type
  /-- What has arrived. -/
  pending : State → List α
  /-- Read up to so many elements. -/
  read : Nat → State → List α × State
  read_append : ∀ n s, (read n s).1 ++ pending (read n s).2 = pending s
  read_length : ∀ n s, (read n s).1.length ≤ n
  read_ne_nil : ∀ n s, 0 < n → pending s ≠ [] → (read n s).1 ≠ []

namespace Feed

variable {α : Type} (S : Feed α)

theorem read_empty {s : S.State} (h : S.pending s = []) (n : Nat) :
    ∃ s', S.read n s = ([], s') ∧ S.pending s' = [] := by
  have happend := S.read_append n s
  rw [h] at happend
  obtain ⟨hgot, hleft⟩ := List.append_eq_nil_iff.1 happend
  exact ⟨(S.read n s).2, Prod.ext hgot rfl, hleft⟩

theorem read_one {s : S.State} {x : α} {l : List α} (h : S.pending s = x :: l) :
    ∃ s', S.read 1 s = ([x], s') ∧ S.pending s' = l := by
  have happend := S.read_append 1 s
  have hlength := S.read_length 1 s
  have hne := S.read_ne_nil 1 s Nat.one_pos (by rw [h]; exact List.cons_ne_nil _ _)
  obtain ⟨y, hy⟩ := List.length_eq_one_iff.1 (Nat.le_antisymm hlength (List.length_pos_iff.2 hne))
  rw [hy, h] at happend
  obtain ⟨rfl, hleft⟩ := List.cons.inj happend
  exact ⟨(S.read 1 s).2, Prod.ext hy rfl, hleft⟩

/-- Read on until there are `n` elements or a read gives nothing, in at most so many rounds. -/
def readOn : Nat → Nat → S.State → List α × S.State
  | 0, _, s => ([], s)
  | rounds + 1, n, s =>
    if n = 0 then ([], s)
    else
      let (got, s) := S.read n s
      if got.length = 0 then ([], s)
      else
        let (more, s) := readOn rounds (n - got.length) s
        (got ++ more, s)

/-- Every round gives something, so there are no more rounds than elements. -/
def readExactly (n : Nat) (s : S.State) : List α × S.State := S.readOn n n s

theorem readOn_eq {rounds n : Nat} (h : n ≤ rounds) (s : S.State) :
    ∃ s', S.readOn rounds n s = ((S.pending s).take n, s') ∧ S.pending s' = (S.pending s).drop n := by
  induction rounds generalizing n s with
  | zero =>
    obtain rfl := Nat.le_zero.1 h
    exact ⟨s, rfl, rfl⟩
  | succ rounds ih =>
    rw [readOn]
    split
    · rename_i hn
      rw [hn]
      exact ⟨s, rfl, rfl⟩
    · rename_i hn
      have happend := S.read_append n s
      have hlength := S.read_length n s
      have hne := S.read_ne_nil n s (Nat.pos_of_ne_zero hn)
      generalize S.read n s = r at happend hlength hne
      obtain ⟨got, next⟩ := r
      dsimp only at happend hlength hne ⊢
      split
      · rename_i hgot
        have hgot := List.length_eq_zero_iff.1 hgot
        have hnone : S.pending s = [] := by
          by_contra hsome
          exact hne hsome hgot
        rw [hgot, hnone] at happend
        rw [hnone, List.take_nil, List.drop_nil]
        exact ⟨next, rfl, happend⟩
      · rename_i hgot
        obtain ⟨s', hread, hleft⟩ := ih (n := n - got.length) (by omega) next
        rw [hread]
        refine ⟨s', ?_, ?_⟩
        · rw [← happend, List.take_append, List.take_of_length_le hlength]
        · rw [hleft, ← happend, List.drop_append, List.drop_of_length_le hlength, List.nil_append]

theorem readExactly_eq (n : Nat) (s : S.State) :
    ∃ s', S.readExactly n s = ((S.pending s).take n, s') ∧ S.pending s' = (S.pending s).drop n :=
  S.readOn_eq (Nat.le_refl n) s

/-- One read of packets: nothing from behind the first one that has something. -/
def readPackets (n : Nat) : List (List α) → List α × List (List α)
  | [] => ([], [])
  | [] :: packets => readPackets n packets
  | (x :: packet) :: packets => ((x :: packet).take n, (x :: packet).drop n :: packets)

/-- What comes in packets. -/
def packets (α : Type) : Feed α where
  State := List (List α)
  pending := List.flatten
  read := readPackets
  read_append n s := by
    induction s with
    | nil => rfl
    | cons packet s ih =>
      cases packet with
      | nil => exact ih
      | cons x packet =>
        rw [readPackets, List.flatten_cons, List.flatten_cons, ← List.append_assoc, List.take_append_drop]
  read_length n s := by
    induction s with
    | nil => exact Nat.zero_le _
    | cons packet s ih =>
      cases packet with
      | nil => exact ih
      | cons x packet => exact List.length_take_le _ _
  read_ne_nil n s hn hs := by
    induction s with
    | nil => exact absurd rfl hs
    | cons packet s ih =>
      cases packet with
      | nil => exact ih hs
      | cons x packet =>
        rw [readPackets, Ne, List.take_eq_nil_iff, not_or]
        exact ⟨Nat.ne_of_gt hn, List.cons_ne_nil _ _⟩

end Feed

end BaseLib
