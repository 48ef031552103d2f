import Mathlib.Data.List.DropRight
import Mathlib.Data.List.Basic
/-!
# Lines, and the last ones of a list

`lines mark l` are the parts of `l` that end in a mark, with what stands behind
the last mark as a part of its own. `linesInduction` goes from line to line.

`Ring` is the memory of a reader that keeps the last elements it saw: it writes
cell `seen % n` and reads the cells from the oldest one on. `Ring.read_eq_rtake` says that
these are the last `n` elements.
-/

namespace BaseLib

variable {α : Type*}

section Lines
variable [DecidableEq α] (mark : α)

def lines : List α → List (List α)
  | [] => []
  | x :: xs =>
    if x = mark then [x] :: lines xs
    else
      match lines xs with
      | [] => [[x]]
      | l :: ls => (x :: l) :: ls

variable {mark}

@[simp] theorem lines_nil : lines mark ([] : List α) = [] := rfl

theorem lines_cons_ne {x : α} (h : x ≠ mark) {l : List α} {ls : List (List α)} {xs : List α}
    (hl : lines mark xs = l :: ls) : lines mark (x :: xs) = (x :: l) :: ls := by
  rw [lines, if_neg h, hl]

/-- A line and the lines behind it. -/
theorem lines_line {body : List α} (h : mark ∉ body) (rest : List α) :
    lines mark (body ++ mark :: rest) = (body ++ [mark]) :: lines mark rest := by
  induction body with
  | nil => rw [List.nil_append, lines, if_pos rfl, List.nil_append]
  | cons x body ih =>
    rw [List.mem_cons, not_or] at h
    exact lines_cons_ne (Ne.symm h.1) (ih h.2)

/-- What has no mark is one line. -/
theorem lines_last {l : List α} (h : mark ∉ l) (hne : l ≠ []) : lines mark l = [l] := by
  induction l with
  | nil => exact absurd rfl hne
  | cons x l ih =>
    rw [List.mem_cons, not_or] at h
    cases l with
    | nil => rw [lines, if_neg (Ne.symm h.1), lines_nil]
    | cons y l => exact lines_cons_ne (Ne.symm h.1) (ih h.2 (List.cons_ne_nil _ _))

theorem linesInduction {P : List α → Prop} (nil : P []) (last : ∀ l, l ≠ [] → mark ∉ l → P l)
    (line : ∀ body rest, mark ∉ body → P rest → P (body ++ mark :: rest)) (l : List α) : P l := by
  induction hn : l.length using Nat.strong_induction_on generalizing l with
  | _ n ih =>
    by_cases hm : mark ∈ l
    · obtain ⟨body, rest, rfl, hbody⟩ := List.eq_append_cons_of_mem hm
      refine line body rest hbody (ih rest.length ?_ rest rfl)
      rw [← hn, List.length_append, List.length_cons]
      omega
    · by_cases hne : l = []
      · exact hne ▸ nil
      · exact last l hne hm

omit [DecidableEq α] in
/-- Behind a line of a list that ends in a mark is nothing, or what ends in a mark. -/
theorem marked_rest {body rest : List α} (h : body ++ mark :: rest = [] ∨ ∃ b, body ++ mark :: rest = b ++ [mark]) :
    rest = [] ∨ ∃ b, rest = b ++ [mark] := by
  obtain h | ⟨b, h⟩ := h
  · simp at h
  · rcases List.eq_nil_or_concat rest with rfl | ⟨r, x, rfl⟩
    · exact .inl rfl
    · rw [List.concat_eq_append] at h ⊢
      rw [← List.cons_append, ← List.append_assoc] at h
      obtain ⟨-, hx⟩ := List.append_inj' h rfl
      exact .inr ⟨r, by rw [hx]⟩

/-- Lines up to a mark do not depend on what is behind it. -/
theorem lines_append {a : List α} (ha : a = [] ∨ ∃ body, a = body ++ [mark]) (b : List α) :
    lines mark (a ++ b) = lines mark a ++ lines mark b := by
  induction a using @linesInduction _ _ mark with
  | nil => simp
  | last l hne hm =>
    obtain rfl | ⟨body, rfl⟩ := ha
    · exact absurd rfl hne
    · exact absurd (by simp) hm
  | line body rest hbody ih =>
    rw [List.append_assoc, List.cons_append, lines_line hbody, lines_line hbody, ih (marked_rest ha), List.cons_append]

/-- There is one line more than marks in front of the last element. -/
theorem length_lines {l : List α} (h : l ≠ []) : (lines mark l).length = l.dropLast.count mark + 1 := by
  induction l using @linesInduction _ _ mark with
  | nil => exact absurd rfl h
  | last l hne hm => rw [lines_last hm hne, List.count_eq_zero.2 fun hd => hm (List.dropLast_subset l hd)]; rfl
  | line body rest hbody ih =>
    rw [lines_line hbody, List.length_cons, List.dropLast_append_cons, List.count_append, List.count_eq_zero.2 hbody]
    cases rest with
    | nil => rfl
    | cons x rest =>
      rw [ih (List.cons_ne_nil _ _), List.dropLast_cons_of_ne_nil (List.cons_ne_nil _ _), List.count_cons_self,
        Nat.zero_add]

/-- The lines make up the list. -/
theorem lines_flatten (l : List α) : (lines mark l).flatten = l := by
  induction l using @linesInduction _ _ mark with
  | nil => rfl
  | last l hne hm => rw [lines_last hm hne, List.flatten_singleton]
  | line body rest hbody ih => rw [lines_line hbody, List.flatten_cons, ih, List.append_assoc, List.singleton_append]

/-- A line is finished, or it is what stands behind the last mark. -/
theorem mem_lines {l line : List α} (h : line ∈ lines mark l) :
    (∃ body, line = body ++ [mark] ∧ mark ∉ body) ∨ mark ∉ line := by
  induction l using @linesInduction _ _ mark with
  | nil => cases h
  | last l hne hm =>
    rw [lines_last hm hne, List.mem_singleton] at h
    exact .inr (h ▸ hm)
  | line body rest hbody ih =>
    rw [lines_line hbody] at h
    rcases List.mem_cons.1 h with rfl | h
    · exact .inl ⟨body, rfl, hbody⟩
    · exact ih h

end Lines

/-! ## The last elements -/

section AtMostOne
variable {β : Type*} {f : α → List β}

/-- There are no more results than elements, and as many where each element gives one. -/
theorem length_flatMap_le {l : List α} (hf : ∀ x ∈ l, (f x).length ≤ 1) :
    (l.flatMap f).length ≤ l.length ∧ ((l.flatMap f).length = l.length ↔ ∀ x ∈ l, f x ≠ []) := by
  induction l with
  | nil => simp
  | cons x l ih =>
    rw [List.forall_mem_cons] at hf
    obtain ⟨hle, hiff⟩ := ih hf.2
    rw [List.flatMap_cons, List.length_append, List.length_cons, List.forall_mem_cons, ← hiff, ← List.length_pos_iff]
    omega

/-- Where each element gives one result at most, the last `n` elements give the last `n` results when
those in front of them give none, or when each of them gives one, and in no other case. -/
theorem flatMap_rtake_iff {l : List α} (hf : ∀ x ∈ l, (f x).length ≤ 1) (n : Nat) :
    (l.rtake n).flatMap f = (l.flatMap f).rtake n ↔
      (∀ x ∈ l.rdrop n, f x = []) ∨ ∀ x ∈ l.rtake n, f x ≠ [] := by
  have hsplit : l = l.rdrop n ++ l.rtake n := (List.take_append_drop _ _).symm
  have hlen : (l.rtake n).length ≤ n ∧ (l.rdrop n ≠ [] → (l.rtake n).length = n) := by
    rw [List.rtake, List.length_drop]
    refine ⟨by omega, fun h => ?_⟩
    have := List.length_pos_of_ne_nil h
    rw [List.rdrop, List.length_take] at this
    omega
  generalize l.rdrop n = a at *
  generalize l.rtake n = b at *
  subst hsplit
  obtain ⟨hle, hiff⟩ := length_flatMap_le fun x hx => hf x (List.mem_append_right a hx)
  rw [← hiff, ← List.flatMap_eq_nil_iff, List.flatMap_append]
  constructor
  · intro h
    by_cases ha : a.flatMap f = []
    · exact .inl ha
    · right
      have hpos := List.length_pos_of_ne_nil ha
      have heq := congrArg List.length h
      rw [List.rtake, List.length_drop, List.length_append] at heq
      omega
  · rintro (ha | hb)
    · rw [ha, List.nil_append, List.rtake, Nat.sub_eq_zero_of_le (by omega), List.drop_zero]
    · by_cases ha : a = []
      · rw [ha, List.flatMap_nil, List.nil_append, List.rtake, Nat.sub_eq_zero_of_le (by omega), List.drop_zero]
      · have hn := hlen.2 ha
        rw [List.rtake, List.length_append,
          show (a.flatMap f).length + (b.flatMap f).length - n = (a.flatMap f).length by omega,
          List.drop_left]

end AtMostOne

structure Ring (α : Type*) where
  cells : List α
  seen : Nat

namespace Ring

def fresh (n : Nat) (zero : α) : Ring α := ⟨List.replicate n zero, 0⟩

def push (r : Ring α) (x : α) : Ring α := ⟨r.cells.set (r.seen % r.cells.length) x, r.seen + 1⟩

/-- The cells that were written, from the oldest one on. -/
def read (r : Ring α) : List α :=
  let n := r.cells.length
  let count := if r.seen < n then r.seen else n
  let start := if r.seen < n then 0 else r.seen % n
  (List.range count).filterMap fun i => r.cells[(start + i) % n]?

variable {n : Nat} {zero : α}

/-- Cell `k % n` holds element `k`, for the last `n` of them. -/
theorem foldl_push (hn : 0 < n) (xs : List α) :
    (xs.foldl push (fresh n zero)).cells.length = n ∧ (xs.foldl push (fresh n zero)).seen = xs.length ∧
      ∀ k < xs.length, xs.length ≤ k + n → (xs.foldl push (fresh n zero)).cells[k % n]? = xs[k]? := by
  induction xs using List.reverseRecOn with
  | nil => exact ⟨List.length_replicate, rfl, fun k hk => absurd hk (Nat.not_lt_zero k)⟩
  | append_singleton xs x ih =>
    obtain ⟨hlen, hseen, hcells⟩ := ih
    rw [List.foldl_append, List.foldl_cons, List.foldl_nil]
    refine ⟨by rw [push, List.length_set, hlen], by rw [push, hseen, List.length_append, List.length_singleton], ?_⟩
    intro k hk hkn
    rw [List.length_append, List.length_singleton] at hk hkn
    rw [push, hlen, hseen, List.getElem?_set]
    by_cases hlast : k = xs.length
    · subst hlast
      rw [if_pos rfl, if_pos (hlen.symm ▸ Nat.mod_lt _ hn), List.getElem?_concat_length]
    · have hother : xs.length % n ≠ k % n := by
        intro heq
        have hdvd := Nat.dvd_of_mod_eq_zero (Nat.sub_mod_eq_zero_of_mod_eq heq)
        have := Nat.le_of_dvd (by omega) hdvd
        omega
      rw [if_neg hother, hcells k (by omega) (by omega), List.getElem?_append_left (by omega)]

theorem filterMap_getElem (l : List α) : (List.range l.length).filterMap (l[·]?) = l := by
  induction l using List.reverseRecOn with
  | nil => rfl
  | append_singleton l x ih =>
    have hold : ∀ i ∈ List.range l.length, (l ++ [x])[i]? = l[i]? := fun i hi =>
      List.getElem?_append_left (List.mem_range.1 hi)
    rw [List.length_append, List.length_singleton, List.range_succ, List.filterMap_append,
      List.filterMap_congr hold, ih, List.filterMap_cons, List.getElem?_concat_length, List.filterMap_nil]

/-- A ring of `n` cells keeps the last `n` elements. -/
theorem read_eq_rtake (hn : 0 < n) (xs : List α) : (xs.foldl push (fresh n zero)).read = xs.rtake n := by
  obtain ⟨hlen, hseen, hcells⟩ := @foldl_push _ n zero hn xs
  have hcount : (if xs.length < n then xs.length else n) = (xs.rtake n).length := by
    rw [List.rtake, List.length_drop]
    split <;> omega
  simp only [read, hlen, hseen, hcount]
  have hget : ∀ i ∈ List.range (xs.rtake n).length,
      (xs.foldl push (fresh n zero)).cells[((if xs.length < n then 0 else xs.length % n) + i) % n]? =
        (xs.rtake n)[i]? := by
    intro i hi
    rw [List.mem_range, List.rtake, List.length_drop] at hi
    rw [List.rtake, List.getElem?_drop, ← hcells _ (by omega) (by omega)]
    congr 1
    split
    · rw [Nat.zero_add, Nat.sub_eq_zero_of_le (by omega), Nat.zero_add]
    · calc (xs.length % n + i) % n
        _ = (xs.length + i) % n := Nat.mod_add_mod _ _ _
        _ = (xs.length - n + i + n) % n := by congr 1; omega
        _ = (xs.length - n + i) % n := Nat.add_mod_right _ _
  rw [List.filterMap_congr hget, filterMap_getElem]

end Ring

end BaseLib
