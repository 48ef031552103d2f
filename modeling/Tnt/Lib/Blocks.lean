import Mathlib.Data.List.Basic
import Mathlib.Data.List.Infix
/-!
# Cutting a list into blocks

A loop that walks a list by `p += n`, where `n` is read from the front of what
is left, visits the blocks of `cut`: each block is as long as `len` says, at
least one element and at most the rest of the list. `cut` recurses on a bound
for the number of blocks so that it computes; `cut_cons` is its equation.

A list is `Tiled` by a property of blocks when it is a concatenation of blocks
that have it, and `cut_flatten_eq` says that `cut` finds these blocks again when
the front of each determines its length. `cut_append` is for a reader that stops
at a mark: what it reads up to the last mark does not depend on what follows.
-/

namespace BaseLib

variable {α : Type*}

/-- The length of the block at the front of `l`. -/
def blockLen (len : List α → Nat) (l : List α) : Nat := max 1 (len l)

def cutAux (len : List α → Nat) : Nat → List α → List (List α)
  | 0, _ => []
  | _, [] => []
  | n + 1, x :: xs =>
    (x :: xs).take (blockLen len (x :: xs)) :: cutAux len n ((x :: xs).drop (blockLen len (x :: xs)))

/-- The blocks of `l`. -/
def cut (len : List α → Nat) (l : List α) : List (List α) := cutAux len l.length l

variable {len : List α → Nat}

theorem blockLen_pos (l : List α) : 0 < blockLen len l := Nat.lt_of_lt_of_le Nat.one_pos (Nat.le_max_left ..)

theorem cutAux_eq {n m : Nat} {l : List α} (hn : l.length ≤ n) (hm : l.length ≤ m) :
    cutAux len n l = cutAux len m l := by
  induction n generalizing m l with
  | zero =>
    rw [List.length_eq_zero_iff.1 (Nat.le_zero.1 hn)]
    cases m <;> rfl
  | succ n ih =>
    cases l with
    | nil => cases m <;> rfl
    | cons x xs =>
      obtain ⟨m, rfl⟩ := Nat.exists_eq_succ_of_ne_zero (Nat.ne_of_gt (Nat.lt_of_lt_of_le (Nat.succ_pos _) hm))
      have hpos := @blockLen_pos _ len (x :: xs)
      simp only [List.length_cons] at hn hm
      simp only [cutAux]
      rw [ih (m := m) (by simp; omega) (by simp; omega)]

@[simp] theorem cut_nil : cut len ([] : List α) = [] := rfl

theorem cut_cons (x : α) (xs : List α) :
    cut len (x :: xs) =
      (x :: xs).take (blockLen len (x :: xs)) :: cut len ((x :: xs).drop (blockLen len (x :: xs))) := by
  have hpos := @blockLen_pos _ len (x :: xs)
  simp only [cut, List.length_cons, cutAux]
  rw [cutAux_eq (by simp; omega) (Nat.le_refl _)]

/-- What fits into a block is one. -/
theorem cut_of_length_le {l : List α} (hne : l ≠ []) (h : l.length ≤ blockLen len l) : cut len l = [l] := by
  obtain ⟨x, xs, rfl⟩ := List.exists_cons_of_ne_nil hne
  rw [cut_cons, List.take_of_length_le h, List.drop_of_length_le h, cut_nil]

/-- The blocks make up the list. -/
theorem cut_flatten (l : List α) : (cut len l).flatten = l := by
  induction h : l.length using Nat.strong_induction_on generalizing l with
  | _ n ih =>
    cases l with
    | nil => rfl
    | cons x xs =>
      have hpos := @blockLen_pos _ len (x :: xs)
      rw [cut_cons, List.flatten_cons, ih _ ?_ _ rfl, List.take_append_drop]
      rw [← h, List.length_drop, List.length_cons]
      omega

/-- A block is the front of some rest of the list. -/
theorem mem_cut {l c : List α} (h : c ∈ cut len l) : ∃ p, p ≠ [] ∧ c = p.take (blockLen len p) := by
  induction hn : l.length using Nat.strong_induction_on generalizing l with
  | _ n ih =>
    cases l with
    | nil => simp at h
    | cons x xs =>
      have hpos := @blockLen_pos _ len (x :: xs)
      rw [cut_cons] at h
      rcases List.mem_cons.1 h with rfl | h
      · exact ⟨x :: xs, by simp, rfl⟩
      · exact ih _ (by rw [← hn, List.length_drop, List.length_cons]; omega) h rfl

theorem ne_nil_of_mem_cut {l c : List α} (h : c ∈ cut len l) : c ≠ [] := by
  obtain ⟨p, hp, rfl⟩ := mem_cut h
  rw [Ne, List.take_eq_nil_iff, not_or]
  exact ⟨(blockLen_pos p).ne', hp⟩

theorem cut_ne_nil {l : List α} (h : l ≠ []) : cut len l ≠ [] := by
  cases l with
  | nil => exact absurd rfl h
  | cons x xs => rw [cut_cons]; simp

/-- A reader that finds the block at the front of what is left of a list, however much is cut off behind it, finds the
first blocks of the list again when the others are cut off. -/
theorem cut_flatten_take (h : ∀ l n, blockLen len l ≤ n → blockLen len (l.take n) = blockLen len l) (l : List α)
    (k : Nat) : cut len ((cut len l).take k).flatten = (cut len l).take k := by
  induction k generalizing l with
  | zero => rfl
  | succ k ih =>
    cases l with
    | nil => rfl
    | cons x xs =>
      rw [cut_cons, List.take_succ_cons, List.flatten_cons]
      generalize hn : blockLen len (x :: xs) = n
      have hpos : 0 < n := hn ▸ blockLen_pos _
      have ih := ih ((x :: xs).drop n)
      generalize hfront : ((cut len ((x :: xs).drop n)).take k).flatten = front at ih
      have hpre : front = ((x :: xs).drop n).take front.length := by
        refine List.prefix_iff_eq_take.1 ⟨((cut len ((x :: xs).drop n)).drop k).flatten, ?_⟩
        rw [← hfront, ← List.flatten_append, List.take_append_drop, cut_flatten]
      have hback : (x :: xs).take n ++ front = (x :: xs).take (n + front.length) := by
        rw [List.take_add, ← hpre]
      obtain ⟨m, hm⟩ := Nat.exists_eq_add_one_of_ne_zero (Nat.add_pos_left hpos front.length).ne'
      have hlen := h (x :: xs) (n + front.length) (by omega)
      rw [hback]
      rw [hm, List.take_succ_cons] at hlen ⊢
      rw [cut_cons, hlen, hn, ← List.take_succ_cons, ← hm, List.drop_take, List.take_take, Nat.add_sub_cancel_left,
        ← hpre, ih, Nat.min_eq_left (Nat.le_add_right _ _)]

/-- A reader that looks no further than the end of `a` from anywhere inside `a`
reads `a` first and then goes on behind it. -/
theorem cut_append {a b : List α}
    (h : ∀ s, s ≠ [] → s <:+ a → blockLen len (s ++ b) = blockLen len s ∧ blockLen len s ≤ s.length) :
    cut len (a ++ b) = cut len a ++ cut len b := by
  induction hn : a.length using Nat.strong_induction_on generalizing a with
  | _ n ih =>
    cases a with
    | nil => rfl
    | cons x xs =>
      have hpos := @blockLen_pos _ len (x :: xs)
      obtain ⟨hlen, hle⟩ := h (x :: xs) (by simp) (List.suffix_refl _)
      rw [List.cons_append, cut_cons, cut_cons, ← List.cons_append, hlen, List.take_append_of_le_length hle,
        List.drop_append_of_le_length hle, List.cons_append, ih _ ?_ ?_ rfl]
      · rw [← hn, List.length_drop, List.length_cons]
        omega
      · exact fun s hs hsuf => h s hs (hsuf.trans (List.drop_suffix _ _))

/-! ## Fronts

Where a reader may stop behind a block. -/

/-- What has been read of `l` behind some of its blocks. -/
def Front (len : List α → Nat) (l t : List α) : Prop := ∃ k, t = ((cut len l).take k).flatten

theorem front_nil (l : List α) : Front len l [] := ⟨0, rfl⟩

theorem front_self (l : List α) : Front len l l := ⟨(cut len l).length, by rw [List.take_length, cut_flatten]⟩

/-- Nothing has been read, or the first block and some of the others. -/
theorem front_step {l t : List α} (hl : l ≠ []) : Front len l t ↔
    t = [] ∨ ∃ t', t = l.take (blockLen len l) ++ t' ∧ Front len (l.drop (blockLen len l)) t' := by
  obtain ⟨x, xs, rfl⟩ := List.exists_cons_of_ne_nil hl
  unfold Front
  rw [cut_cons]
  constructor
  · rintro ⟨k, rfl⟩
    cases k with
    | zero => exact .inl rfl
    | succ k => exact .inr ⟨_, by rw [List.take_succ_cons, List.flatten_cons], k, rfl⟩
  · rintro (rfl | ⟨_, rfl, k, rfl⟩)
    · exact ⟨0, rfl⟩
    · exact ⟨k + 1, by rw [List.take_succ_cons, List.flatten_cons]⟩

/-- A proof that follows a reader from block to block. -/
theorem blocks_induction {P : List α → Prop} (len : List α → Nat) (hnil : P [])
    (hstep : ∀ l, l ≠ [] → P (l.drop (blockLen len l)) → P l) (l : List α) : P l := by
  induction h : l.length using Nat.strong_induction_on generalizing l with
  | _ n ih =>
    rcases eq_or_ne l [] with rfl | hl
    · exact hnil
    · have hpos := @blockLen_pos _ len l
      have hlen := List.length_pos_iff.2 hl
      exact hstep l hl (ih _ (by rw [← h, List.length_drop]; omega) _ rfl)

/-- Readers that agree on what is left of a list cut it into the same blocks. -/
theorem cut_congr {len' : List α → Nat} {l : List α}
    (h : ∀ s, s ≠ [] → s <:+ l → blockLen len s = blockLen len' s) : cut len l = cut len' l := by
  induction l using blocks_induction len with
  | hnil => rfl
  | hstep l hl ih =>
    have hfirst := h l hl List.suffix_rfl
    obtain ⟨x, xs, rfl⟩ := List.exists_cons_of_ne_nil hl
    rw [cut_cons, cut_cons, ← hfirst, ih fun s hs hsub => h s hs (hsub.trans (List.drop_suffix _ _))]

theorem Front.isPrefix {l t : List α} (h : Front len l t) : t <+: l := by
  obtain ⟨k, rfl⟩ := h
  exact ⟨((cut len l).drop k).flatten, by rw [← List.flatten_append, List.take_append_drop, cut_flatten]⟩

/-- The reader goes on behind what has been read. -/
theorem Front.append {u r t : List α} (h : Front len (u ++ r) u) (ht : Front len r t) :
    Front len (u ++ r) (u ++ t) := by
  generalize hl : u ++ r = l at h ⊢
  induction l using blocks_induction len generalizing u with
  | hnil =>
    obtain ⟨rfl, rfl⟩ := List.append_eq_nil_iff.1 hl
    exact ht
  | hstep l hne ih =>
    rcases (front_step hne).1 h with rfl | ⟨u', rfl, hu'⟩
    · rw [List.nil_append] at hl ⊢
      rwa [← hl]
    · have hsplit : u' ++ r = l.drop (blockLen len l) := by
        rw [List.append_assoc] at hl
        exact List.append_cancel_left (hl.trans (List.take_append_drop _ l).symm)
      exact (front_step hne).2 (.inr ⟨_, List.append_assoc .., ih hsplit hu'⟩)

theorem front_block {l : List α} (hl : l ≠ []) : Front len l (l.take (blockLen len l)) :=
  (front_step hl).2 (.inr ⟨[], by rw [List.append_nil], front_nil _⟩)

/-- The reader goes on with the next block. -/
theorem Front.next {u r : List α} (h : Front len (u ++ r) u) (hr : r ≠ []) :
    Front len (u ++ r) (u ++ r.take (blockLen len r)) := h.append (front_block hr)

/-- A reader who is further has read the next block. -/
theorem Front.next_isPrefix {u r t : List α} (hu : Front len (u ++ r) u) (ht : Front len (u ++ r) t)
    (hlt : u.length < t.length) : u ++ r.take (blockLen len r) <+: t := by
  generalize hl : u ++ r = l at hu ht
  induction l using blocks_induction len generalizing u t with
  | hnil =>
    rw [List.eq_nil_of_length_eq_zero (Nat.le_zero.1 ht.isPrefix.length_le)] at hlt
    exact absurd hlt (Nat.not_lt_zero _)
  | hstep l hne ih =>
    rcases (front_step hne).1 ht with rfl | ⟨t', rfl, ht'⟩
    · exact absurd hlt (Nat.not_lt_zero _)
    rcases (front_step hne).1 hu with rfl | ⟨u', rfl, hu'⟩
    · rw [List.nil_append] at hl ⊢
      rw [hl]
      exact List.prefix_append _ _
    · have hsplit : u' ++ r = l.drop (blockLen len l) := by
        rw [List.append_assoc] at hl
        exact List.append_cancel_left (hl.trans (List.take_append_drop _ l).symm)
      rw [List.append_assoc, List.prefix_append_right_inj]
      exact ih (by simpa using hlt) hsplit hu' ht'

/-- Every place in a list is the end of a front, or lies inside the block behind one. -/
theorem exists_front {l t r : List α} (hl : t ++ r = l) : Front len l t ∨
    ∃ u v, l = u ++ v ∧ Front len l u ∧ u.length < t.length ∧ t.length < (u ++ v.take (blockLen len v)).length := by
  induction l using blocks_induction len generalizing t with
  | hnil =>
    rw [(List.append_eq_nil_iff.1 hl).1]
    exact .inl (front_nil _)
  | hstep l hne ih =>
    rcases eq_or_ne t [] with rfl | ht
    · exact .inl (front_nil _)
    rcases Nat.lt_or_ge t.length (l.take (blockLen len l)).length with hlt | hge
    · exact .inr ⟨[], l, rfl, front_nil _, List.length_pos_iff.2 ht, hlt⟩
    · have hfront : l.take (blockLen len l) <+: t :=
        List.prefix_of_prefix_length_le (List.take_prefix _ _) ⟨r, hl⟩ hge
      obtain ⟨t', rfl⟩ := hfront
      have hsplit : t' ++ r = l.drop (blockLen len l) := by
        rw [List.append_assoc] at hl
        exact List.append_cancel_left (hl.trans (List.take_append_drop _ l).symm)
      rcases ih hsplit with h | ⟨u, v, huv, hu, hlt, hgt⟩
      · exact .inl ((front_step hne).2 (.inr ⟨_, rfl, h⟩))
      · refine .inr ⟨l.take (blockLen len l) ++ u, v, ?_, (front_step hne).2 (.inr ⟨_, rfl, hu⟩), ?_, ?_⟩
        · rw [List.append_assoc, ← huv, List.take_append_drop]
        · simpa using hlt
        · rw [List.append_assoc, List.length_append, List.length_append]
          omega

/-- The longest front that fits. -/
structure LongestFront (len : List α → Nat) (Fits : List α → Prop) (l t : List α) : Prop where
  front : Front len l t
  fits : Fits t
  longest : ∀ t', Front len l t' → Fits t' → t' <+: t

/-- A reader that goes on as long as the next block fits reads the longest front that fits. -/
theorem longestFront_of_stop {Fits : List α → Prop} {l : List α} {kept rest : List (List α)}
    (hcut : cut len l = kept ++ rest)
    (hmono : ∀ a b, Front len l a → Front len l b → a <+: b → Fits b → Fits a) (hfits : Fits kept.flatten)
    (hstop : ∀ c more, rest = c :: more → ¬ Fits (kept ++ [c]).flatten) : LongestFront len Fits l kept.flatten := by
  refine ⟨⟨kept.length, by rw [hcut, List.take_left]⟩, hfits, ?_⟩
  rintro _ ⟨k, rfl⟩ hlong
  rcases Nat.lt_or_ge kept.length k with hlt | hge
  · cases hrest : rest with
    | nil => rw [hcut, hrest, List.append_nil, List.take_of_length_le (Nat.le_of_lt hlt)]
    | cons c more =>
      -- The block that did not fit is in a longer front.
      have hnext : (cut len l).take (kept.length + 1) = kept ++ [c] := by
        rw [hcut, hrest, List.take_length_add_append, List.take_succ_cons, List.take_zero]
      obtain ⟨others, hothers⟩ := (cut len l).take_prefix_take_left hlt
      rw [hnext] at hothers
      have hfits : Fits (kept ++ [c]).flatten := by
        refine hmono _ _ ⟨kept.length + 1, by rw [hnext]⟩ ⟨k, rfl⟩ ⟨others.flatten, ?_⟩ hlong
        rw [← List.flatten_append, hothers]
      exact absurd hfits (hstop c more hrest)
  · obtain ⟨more, hmore⟩ := (cut len l).take_prefix_take_left hge
    refine ⟨more.flatten, ?_⟩
    rw [← List.flatten_append, hmore, hcut, List.take_left]

section Nested
-- The blocks of `coarse` are made of blocks of `fine`, and what fits, fits without its last blocks.
variable {fine coarse : List α → Nat} {Fits : List α → Prop}
  (hnested : ∀ l, l ≠ [] → Front fine l (l.take (blockLen coarse l)))
include hnested

theorem Front.toFine {l t : List α} (h : Front coarse l t) : Front fine l t := by
  induction l using blocks_induction coarse generalizing t with
  | hnil =>
    rw [List.prefix_nil.1 h.isPrefix]
    exact front_nil _
  | hstep l hne ih =>
    rcases (front_step hne).1 h with rfl | ⟨t', rfl, ht'⟩
    · exact front_nil _
    · have hsplit := List.take_append_drop (blockLen coarse l) l
      have hblock : Front fine (l.take (blockLen coarse l) ++ l.drop (blockLen coarse l))
          (l.take (blockLen coarse l)) := by
        rw [hsplit]
        exact hnested l hne
      have hboth := hblock.append (ih ht')
      rwa [hsplit] at hboth

/-- A reader that stops where the next fine block does not fit stops behind a coarse one, unless it is a coarse
block that stops it halfway. -/
theorem LongestFront.coarse_iff {l t : List α} (h : LongestFront fine Fits l t)
    (hmono : ∀ a b, Front fine l a → Front fine l b → a <+: b → Fits b → Fits a) :
    Front coarse l t ↔ ∀ u v, u ++ v = l → v ≠ [] → Front coarse l u →
      Fits (u ++ v.take (blockLen fine v)) → Fits (u ++ v.take (blockLen coarse v)) := by
  constructor
  · rintro ht u v rfl hv hu hfits
    have hlonger := h.longest _ ((hu.toFine hnested).next hv) hfits
    have hpos := List.length_pos_iff.2 hv
    have hblock := @blockLen_pos _ fine v
    have hlt : u.length < t.length := by
      have hle := hlonger.length_le
      rw [List.length_append, List.length_take] at hle
      omega
    exact hmono _ _ ((hu.next hv).toFine hnested) h.front (hu.next_isPrefix ht hlt) h.fits
  · intro hall
    obtain ⟨r, hr⟩ := h.front.isPrefix
    rcases exists_front hr with hfront | ⟨u, v, rfl, hu, hlt, hgt⟩
    · exact hfront
    · have hv : v ≠ [] := by
        rintro rfl
        rw [List.take_nil, List.append_nil] at hgt
        omega
      have hnext := (hu.toFine hnested).next_isPrefix h.front hlt
      have hfits := hmono _ _ ((hu.toFine hnested).next hv) h.front hnext h.fits
      have hle := (h.longest _ ((hu.next hv).toFine hnested) (hall u v rfl hv hu hfits)).length_le
      omega

end Nested

/-- `l` is a concatenation of blocks that satisfy `P`. -/
def Tiled (P : List α → Prop) (l : List α) : Prop := ∃ cs : List (List α), cs.flatten = l ∧ ∀ c ∈ cs, P c

theorem Tiled.nil (P : List α → Prop) : Tiled P [] := ⟨[], rfl, by simp⟩

theorem Tiled.append {P : List α → Prop} {a b : List α} (ha : Tiled P a) (hb : Tiled P b) :
    Tiled P (a ++ b) := by
  obtain ⟨as, rfl, has⟩ := ha
  obtain ⟨bs, rfl, hbs⟩ := hb
  refine ⟨as ++ bs, by simp, fun c hc => ?_⟩
  rcases List.mem_append.1 hc with hc | hc
  · exact has c hc
  · exact hbs c hc

theorem Tiled.cons {P : List α → Prop} {c l : List α} (hc : P c) (hl : Tiled P l) : Tiled P (c ++ l) :=
  Tiled.append ⟨[c], by simp, by simpa using hc⟩ hl

section Read
-- Blocks that `len` reads back from the front of any list they start.
variable {P : List α → Prop} (hP : ∀ c l, P c → c ≠ [] ∧ blockLen len (c ++ l) = c.length)
include hP

/-- Cutting finds the blocks again, and goes on behind them. -/
theorem cut_append_flatten (cs : List (List α)) (hcs : ∀ c ∈ cs, P c) (l : List α) :
    cut len (cs.flatten ++ l) = cs ++ cut len l := by
  induction cs with
  | nil => rfl
  | cons c cs ih =>
    obtain ⟨hne, hlen⟩ := hP c (cs.flatten ++ l) (hcs c List.mem_cons_self)
    obtain ⟨x, xs, rfl⟩ := List.exists_cons_of_ne_nil hne
    have ih := ih (fun d hd => hcs d (List.mem_cons_of_mem _ hd))
    simp only [List.flatten_cons, List.append_assoc, List.cons_append] at hlen ⊢
    rw [cut_cons, hlen]
    simp [ih]

theorem front_flatten (cs : List (List α)) (hcs : ∀ c ∈ cs, P c) (l : List α) : Front len (cs.flatten ++ l) cs.flatten :=
  ⟨cs.length, by rw [cut_append_flatten hP cs hcs, List.take_left]⟩

theorem cut_flatten_eq (cs : List (List α)) (hcs : ∀ c ∈ cs, P c) : cut len cs.flatten = cs := by
  simpa using cut_append_flatten hP cs hcs []

/-- A list is tiled exactly when all its blocks have the property. -/
theorem tiled_iff_cut (l : List α) : Tiled P l ↔ ∀ c ∈ cut len l, P c := by
  constructor
  · rintro ⟨cs, rfl, hcs⟩
    rwa [cut_flatten_eq hP cs hcs]
  · exact fun h => ⟨cut len l, cut_flatten l, h⟩

/-- The blocks of a tiled list in front of any other list are cut off first. -/
theorem cut_append_of_tiled {a : List α} (ha : Tiled P a) (l : List α) :
    cut len (a ++ l) = cut len a ++ cut len l := by
  obtain ⟨as, rfl, has⟩ := ha
  rw [cut_append_flatten hP as has, cut_flatten_eq hP as has]

/-- Behind a tiled list, a list is tiled exactly when the whole is. -/
theorem tiled_append_iff {a : List α} (ha : Tiled P a) (b : List α) : Tiled P (a ++ b) ↔ Tiled P b := by
  refine ⟨fun h => ?_, fun h => ha.append h⟩
  rw [tiled_iff_cut hP, cut_append_of_tiled hP ha] at h
  exact (tiled_iff_cut hP b).2 fun c hc => h c (List.mem_append_right _ hc)

end Read

end BaseLib
