import Mathlib.Data.List.Basic
/-!
# Counting in windows

A limiter that counts what it lets in, and begins to count anew when its window
is over, cuts time into windows one behind the other. An interval as long as a
window reaches into two of them at most. `Windowed.inside_cases` says what that
leaves of the limit.
-/

namespace BaseLib

/-- A window: when it began, and when something was let in during it. -/
structure CountWindow where
  start : Int
  times : List Int

/-- Windows of length `len`, the newest first, each with `limit` entries at most and opened by one. -/
structure Windowed (len : Int) (limit : Nat) (ws : List CountWindow) : Prop where
  spaced : ws.Pairwise fun w v => v.start + len ≤ w.start
  within : ∀ w ∈ ws, ∀ t ∈ w.times, w.start ≤ t ∧ t < w.start + len
  limited : ∀ w ∈ ws, w.times.length ≤ limit
  opened : ∀ w ∈ ws, w.start ∈ w.times

/-- Everything that was let in. -/
def CountWindow.all (ws : List CountWindow) : List Int := ws.flatMap times

/-- What lies in the interval of length `len` from `x` on. -/
def inside (len x : Int) (l : List Int) : List Int := l.filter fun t => x ≤ t ∧ t < x + len

variable {len x now : Int} {limit : Nat} {w : CountWindow} {ws : List CountWindow}

theorem mem_inside {l : List Int} {t : Int} : t ∈ inside len x l ↔ t ∈ l ∧ x ≤ t ∧ t < x + len := by
  simp [inside, List.mem_filter]

theorem inside_append (l m : List Int) : inside len x (l ++ m) = inside len x l ++ inside len x m :=
  List.filter_append l m

theorem length_inside_le (l : List Int) : (inside len x l).length ≤ l.length := List.length_filter_le _ l

theorem inside_eq_nil {l : List Int} (h : ∀ t ∈ l, t < x ∨ x + len ≤ t) : inside len x l = [] := by
  apply List.eq_nil_iff_forall_not_mem.2
  intro t ht
  obtain ⟨hmem, hle, hlt⟩ := mem_inside.1 ht
  rcases h t hmem with h | h <;> omega

theorem Windowed.tail (h : Windowed len limit (w :: ws)) : Windowed len limit ws where
  spaced := (List.pairwise_cons.1 h.spaced).2
  within v hv := h.within v (List.mem_cons_of_mem _ hv)
  limited v hv := h.limited v (List.mem_cons_of_mem _ hv)
  opened v hv := h.opened v (List.mem_cons_of_mem _ hv)

/-- Windows that are over when the interval begins leave nothing in it. -/
theorem Windowed.inside_past (h : Windowed len limit ws) (hpast : ∀ v ∈ ws, v.start + len ≤ x) :
    inside len x (CountWindow.all ws) = [] := by
  apply inside_eq_nil
  intro t ht
  obtain ⟨v, hv, hmem⟩ := List.mem_flatMap.1 ht
  have hlt := (h.within v hv t hmem).2
  exact .inl (Int.lt_of_lt_of_le hlt (hpast v hv))

/-- A window begins behind an older one, inside the interval and behind an entry in it. -/
structure Opening (len x : Int) (ws : List CountWindow) (w v : CountWindow) : Prop where
  mem : w ∈ ws
  older : v ∈ ws
  behind : v.start < w.start
  starts : w.start < x + len
  entry : ∃ a ∈ inside len x (CountWindow.all ws), a < w.start

/-- An interval holds no more than the limit, or a window begins in it and it holds less than twice
the limit. -/
theorem Windowed.inside_cases (h : Windowed len limit ws) (hlen : 0 < len) :
    (inside len x (CountWindow.all ws)).length ≤ limit ∨
      (inside len x (CountWindow.all ws)).length ≤ 2 * limit - 1 ∧ ∃ w v, Opening len x ws w v := by
  induction ws with
  | nil => exact .inl (Nat.zero_le _)
  | cons w ws ih =>
    have hspaced := List.pairwise_cons.1 h.spaced
    have hall : CountWindow.all (w :: ws) = w.times ++ CountWindow.all ws := rfl
    have hlimit := h.limited w List.mem_cons_self
    have hinside : (inside len x w.times).length ≤ w.times.length := length_inside_le w.times
    rw [hall, inside_append, List.length_append]
    rcases Int.lt_or_le w.start (x + len) with hin | hlate
    swap
    · -- The newest window lies behind the interval.
      have hnil : inside len x w.times = [] := inside_eq_nil fun t ht =>
        .inr (Int.le_trans hlate (h.within w List.mem_cons_self t ht).1)
      rw [hnil, List.length_nil, Nat.zero_add]
      rcases ih h.tail with hle | ⟨hle, u, v, ho⟩
      · exact .inl hle
      · obtain ⟨a, ha, hlt⟩ := ho.entry
        refine .inr ⟨hle, u, v, List.mem_cons_of_mem _ ho.mem, List.mem_cons_of_mem _ ho.older, ho.behind, ho.starts,
          a, ?_, hlt⟩
        rw [hall, inside_append]
        exact List.mem_append_right _ ha
    rcases Int.lt_or_le x w.start with hfirst | hearly
    swap
    · -- It began in front of the interval, and the others were over by then.
      rw [h.tail.inside_past fun v hv => Int.le_trans (hspaced.1 v hv) hearly, List.length_nil]
      exact .inl (by omega)
    cases ws with
    | nil =>
      left
      simp only [CountWindow.all, List.flatMap_nil, inside, List.filter_nil, List.length_nil] at hinside ⊢
      omega
    | cons v ws =>
      -- The window before it began in front of the interval, with an entry that the interval leaves out.
      have hv := hspaced.1 v List.mem_cons_self
      have hvlimit := h.limited v (List.mem_cons_of_mem _ List.mem_cons_self)
      have hpast : inside len x (CountWindow.all ws) = [] := h.tail.tail.inside_past fun u hu => by
        have := (List.pairwise_cons.1 hspaced.2).1 u hu
        omega
      have hrest : inside len x (CountWindow.all (v :: ws)) = inside len x v.times := by
        rw [show CountWindow.all (v :: ws) = v.times ++ CountWindow.all ws from rfl, inside_append, hpast,
          List.append_nil]
      have hless : (inside len x v.times).length < v.times.length := by
        apply List.length_filter_lt_length_iff_exists.2
        refine ⟨v.start, h.opened v (List.mem_cons_of_mem _ List.mem_cons_self), ?_⟩
        simp only [decide_eq_true_eq]
        omega
      rw [hrest]
      by_cases hnone : inside len x v.times = []
      · rw [hnone, List.length_nil]
        exact .inl (by omega)
      · right
        obtain ⟨a, ha⟩ := List.exists_mem_of_ne_nil _ hnone
        have hav := (h.within v (List.mem_cons_of_mem _ List.mem_cons_self) a (mem_inside.1 ha).1).2
        refine ⟨by omega, w, v, List.mem_cons_self, List.mem_cons_of_mem _ List.mem_cons_self, by omega, hin, a, ?_,
          by omega⟩
        rw [hall, inside_append, hrest]
        exact List.mem_append_right _ ha

/-! ## What a limiter does to its windows -/

theorem windowed_single (hlen : 0 < len) (hlimit : 0 < limit) : Windowed len limit [⟨now, [now]⟩] := by
  refine ⟨List.pairwise_singleton _ _, ?_, ?_, ?_⟩ <;> simp <;> omega

/-- It begins to count anew when the newest window is over. -/
theorem Windowed.renew (h : Windowed len limit (w :: ws)) (hlen : 0 < len) (hlimit : 0 < limit)
    (hover : w.start + len ≤ now) : Windowed len limit (⟨now, [now]⟩ :: w :: ws) := by
  have hspaced := (List.pairwise_cons.1 h.spaced).1
  refine ⟨List.pairwise_cons.2 ⟨fun v hv => ?_, h.spaced⟩, ?_, ?_, ?_⟩
  · rcases List.mem_cons.1 hv with rfl | hv
    · exact hover
    · have := hspaced v hv
      simp only []
      omega
  · exact List.forall_mem_cons.2 ⟨by simp; omega, h.within⟩
  · exact List.forall_mem_cons.2 ⟨hlimit, h.limited⟩
  · exact List.forall_mem_cons.2 ⟨List.mem_singleton_self _, h.opened⟩

/-- It lets one more in while the count is below the limit. -/
theorem Windowed.add (h : Windowed len limit (w :: ws)) (hle : w.start ≤ now) (hlt : now < w.start + len)
    (hcount : w.times.length < limit) : Windowed len limit (⟨w.start, now :: w.times⟩ :: ws) := by
  refine ⟨List.pairwise_cons.2 (List.pairwise_cons.1 h.spaced), ?_, ?_, ?_⟩
  · obtain ⟨hw, hws⟩ := List.forall_mem_cons.1 h.within
    exact List.forall_mem_cons.2 ⟨List.forall_mem_cons.2 ⟨⟨hle, hlt⟩, hw⟩, hws⟩
  · exact List.forall_mem_cons.2 ⟨hcount, h.tail.limited⟩
  · exact List.forall_mem_cons.2 ⟨List.mem_cons_of_mem _ (h.opened w List.mem_cons_self), h.tail.opened⟩

end BaseLib
