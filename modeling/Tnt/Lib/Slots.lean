import Mathlib.Data.List.Basic
import Mathlib.Data.Option.Basic
/-!
# Tables with a fixed number of slots

A slot carries a key, and `free` is the key of the slots that hold nothing. A
table is read by `lookup` and written slot by slot. While no key is in two slots
(`Distinct`), a write changes the lookups of the key it puts in and of the key
it throws out, and no others (`lookup_set`).
-/

namespace BaseLib

variable {α κ : Type*} [DecidableEq κ] (key : α → κ)

/-- The first slot with the key `k`. -/
def lookup (k : κ) (l : List α) : Option α := l.find? fun a => key a = k

/-- No key other than `free` is in two slots. -/
def Distinct (free : κ) (l : List α) : Prop :=
  ∀ (i j : Nat) (a b : α), l[i]? = some a → l[j]? = some b → key a = key b → key a ≠ free → i = j

variable {key} {free k : κ} {l : List α}

theorem lookup_eq_none : lookup key k l = none ↔ ∀ a ∈ l, key a ≠ k := by
  simp [lookup]

theorem key_of_lookup {a : α} (h : lookup key k l = some a) : key a = k := by
  simpa using List.find?_some h

theorem lookup_eq_some (h : Distinct key free l) (hk : k ≠ free) {a : α} :
    lookup key k l = some a ↔ ∃ i : Nat, l[i]? = some a ∧ key a = k := by
  constructor
  · intro hl
    obtain ⟨i, hi⟩ := List.mem_iff_getElem?.1 (List.mem_of_find?_eq_some hl)
    exact ⟨i, hi, key_of_lookup hl⟩
  · rintro ⟨i, hi, rfl⟩
    rcases hl : lookup key (key a) l with _ | b
    · exact absurd rfl (lookup_eq_none.1 hl a (List.mem_iff_getElem?.2 ⟨i, hi⟩))
    · obtain ⟨j, hj⟩ := List.mem_iff_getElem?.1 (List.mem_of_find?_eq_some hl)
      have hij := h i j a b hi hj (key_of_lookup hl).symm hk
      rw [← hij, hi] at hj
      exact hj.symm

omit [DecidableEq κ] in
/-- A slot may take a key that no other slot has. -/
theorem Distinct.set (h : Distinct key free l) {i : Nat} {x : α}
    (hx : ∀ (j : Nat) (a : α), l[j]? = some a → key a = key x → j = i) : Distinct key free (l.set i x) := by
  intro j j' a b hj hj' hab hfree
  rw [List.getElem?_set] at hj hj'
  split at hj <;> split at hj'
  · omega
  · rename_i hij hij'
    split at hj
    · obtain rfl := Option.some.inj hj
      exact hij ▸ (hx j' b hj' hab.symm).symm
    · simp at hj
  · rename_i hij hij'
    split at hj'
    · obtain rfl := Option.some.inj hj'
      exact hij' ▸ hx j a hj hab
    · simp at hj'
  · exact h j j' a b hj hj' hab hfree

/-- Writing `x` over `old` changes the lookups of these two keys. -/
theorem lookup_set (h : Distinct key free l) {i : Nat} {x old : α} (hi : l[i]? = some old)
    (hx : ∀ (j : Nat) (a : α), l[j]? = some a → key a = key x → j = i) (hk : k ≠ free) :
    lookup key k (l.set i x) = if k = key x then some x else if k = key old then none else lookup key k l := by
  have hlt : i < l.length := (List.getElem?_eq_some_iff.1 hi).1
  split
  · rename_i hkx
    exact (lookup_eq_some (h.set hx) hk).2 ⟨i, by simp [hlt], hkx.symm⟩
  · rename_i hkx
    split
    · rename_i hko
      apply lookup_eq_none.2
      intro a ha hka
      obtain ⟨j, hj⟩ := List.mem_iff_getElem?.1 ha
      rw [List.getElem?_set] at hj
      split at hj
      · exact hkx (Option.some.inj hj ▸ hka.symm)
      · rename_i hij
        exact hij (h i j old a hi hj (hko ▸ hka).symm (hko ▸ hk))
    · rename_i hko
      apply Option.ext
      intro a
      rw [lookup_eq_some (h.set hx) hk, lookup_eq_some h hk]
      refine exists_congr fun j => and_congr_left fun hka => ?_
      rw [List.getElem?_set]
      split
      · rename_i hij
        rw [← hij, hi]
        refine iff_of_false (fun he => hkx ?_) (fun he => hko ?_)
        · rw [Option.some.inj he, hka]
        · rw [Option.some.inj he, hka]
      · rfl

/-! ## The slot with the least value -/

/-- Whether a value is less than the best so far. -/
def improves (best : Option (Nat × Int)) (v : Int) : Bool :=
  match best with
  | none => true
  | some (_, w) => v < w

def firstMinAux (p : α → Bool) (f : α → Int) : List α → Nat → Option (Nat × Int) → Option (Nat × Int)
  | [], _, best => best
  | a :: l, i, best =>
    firstMinAux p f l (i + 1) (if p a && improves best (f a) then some (i, f a) else best)

/-- The first of the slots satisfying `p` whose value under `f` is the least. -/
def firstMin (p : α → Bool) (f : α → Int) (l : List α) : Option Nat := (firstMinAux p f l 0 none).map (·.1)

variable {p : α → Bool} {f : α → Int}

theorem firstMinAux_cases (l : List α) (i : Nat) (best : Option (Nat × Int)) :
    firstMinAux p f l i best = best ∨
      ∃ j a, l[j]? = some a ∧ p a = true ∧ firstMinAux p f l i best = some (i + j, f a) := by
  induction l generalizing i best with
  | nil => exact .inl rfl
  | cons a l ih =>
    rw [firstMinAux]
    rcases ih (i + 1) (if p a && improves best (f a) then some (i, f a) else best) with h | ⟨j, b, hb, hp, h⟩
    · rw [h]
      split
      · rename_i hpa
        exact .inr ⟨0, a, rfl, (Bool.and_eq_true_iff.1 hpa).1, rfl⟩
      · exact .inl rfl
    · exact .inr ⟨j + 1, b, hb, hp, by rw [h, Nat.add_assoc, Nat.add_comm 1 j]⟩

theorem firstMin_some {i : Nat} (h : firstMin p f l = some i) : ∃ a, l[i]? = some a ∧ p a = true := by
  obtain ⟨r, hr, rfl⟩ := Option.map_eq_some_iff.1 h
  rcases firstMinAux_cases (p := p) (f := f) l 0 none with h0 | ⟨j, a, ha, hp, h0⟩
  · rw [h0] at hr
    cases hr
  · rw [h0] at hr
    obtain rfl := Option.some.inj hr
    exact ⟨a, by simpa using ha, hp⟩

theorem firstMinAux_isSome (l : List α) (i : Nat) {best : Option (Nat × Int)} (h : best.isSome = true) :
    (firstMinAux p f l i best).isSome = true := by
  rcases firstMinAux_cases (p := p) (f := f) l i best with h0 | ⟨j, a, -, -, h0⟩
  · rwa [h0]
  · rw [h0]
    rfl

theorem firstMin_none (h : firstMin p f l = none) : ∀ a ∈ l, p a = false := by
  rw [firstMin, Option.map_eq_none_iff] at h
  suffices hs : ∀ i, firstMinAux p f l i none = none → ∀ a ∈ l, p a = false from hs 0 h
  clear h
  induction l with
  | nil => simp
  | cons b l ih =>
    intro i h a ha
    rw [firstMinAux] at h
    have hb : p b = false := by
      by_contra hb
      rw [Bool.not_eq_false] at hb
      have : (firstMinAux p f l (i + 1) (some (i, f b))).isSome = true := firstMinAux_isSome l (i + 1) rfl
      simp only [hb, improves, Bool.and_true, if_true] at h
      rw [h] at this
      exact absurd this (by simp)
    rcases List.mem_cons.1 ha with rfl | ha
    · exact hb
    · simp only [hb, Bool.false_and, Bool.false_eq_true, if_false] at h
      exact ih (i + 1) h a ha

/-! ## Counting the slots that satisfy a property -/

/-- Writing a slot changes the count by what was there and what is there now. -/
theorem countP_write {i : Nat} {a : α} (h : l[i]? = some a) (b : α) :
    ((l.set i b).countP p : Int) = l.countP p - (if p a then 1 else 0) + (if p b then 1 else 0) := by
  obtain ⟨hi, rfl⟩ := List.getElem?_eq_some_iff.1 h
  rw [List.countP_set hi]
  by_cases hp : p l[i] = true
  · have hpos : 0 < l.countP p := List.countP_pos_iff.2 ⟨_, List.getElem_mem hi, hp⟩
    cases hb : p b <;> simp only [hp, if_true, Bool.false_eq_true, if_false] <;> omega
  · cases hb : p b <;> simp only [hp, if_true, Bool.false_eq_true, if_false] <;> omega

theorem countP_set_eq {i : Nat} {a b : α} (h : l[i]? = some a) (hp : p b = p a) :
    (l.set i b).countP p = l.countP p := by
  have hcount := countP_write (p := p) h b
  rw [hp] at hcount
  omega

theorem countP_set_succ {i : Nat} {a b : α} (h : l[i]? = some a) (ha : p a = false) (hb : p b = true) :
    (l.set i b).countP p = l.countP p + 1 := by
  have hcount := countP_write (p := p) h b
  rw [ha, hb, if_neg Bool.false_ne_true, if_pos rfl] at hcount
  omega

theorem countP_set_pred {i : Nat} {a b : α} (h : l[i]? = some a) (ha : p a = true) (hb : p b = false) :
    (l.set i b).countP p + 1 = l.countP p := by
  have hcount := countP_write (p := p) h b
  rw [ha, hb, if_neg Bool.false_ne_true, if_pos rfl] at hcount
  omega

/-- A stronger property that one element of the list lacks counts fewer. -/
theorem countP_lt {q : α → Bool} (hpq : ∀ a ∈ l, p a = true → q a = true) {a : α} (ha : a ∈ l) (hp : p a = false)
    (hq : q a = true) : l.countP p < l.countP q := by
  obtain ⟨l₁, l₂, rfl⟩ := List.append_of_mem ha
  have h₁ := List.countP_mono_left (l := l₁) fun b hb => hpq b (by simp [hb])
  have h₂ := List.countP_mono_left (l := l₂) fun b hb => hpq b (by simp [hb])
  simp only [List.countP_append, List.countP_cons, hp, hq, if_true, Bool.false_eq_true, if_false]
  omega

/-! ## Which slots satisfy it -/

theorem filter_set_eq {i : Nat} {a b : α} {β : Type*} (f : α → β) (h : l[i]? = some a) (hp : p b = p a)
    (hf : f b = f a) :
    ((l.set i b).filter p).map f = (l.filter p).map f := by
  obtain ⟨hi, rfl⟩ := List.getElem?_eq_some_iff.1 h
  obtain ⟨l₁, l₂, hl, -, hset⟩ := @List.exists_of_set _ _ b _ hi
  have hfilter : l.filter p = (l₁ ++ l[i] :: l₂).filter p := congrArg (List.filter p) hl
  rw [hset, hfilter]
  cases hpa : p l[i] <;> rw [hpa] at hp <;> simp [hp, hpa, hf]

theorem filter_set_add {i : Nat} {a b : α} (h : l[i]? = some a) (ha : p a = false) (hb : p b = true) :
    ((l.set i b).filter p).Perm (b :: l.filter p) := by
  obtain ⟨hi, rfl⟩ := List.getElem?_eq_some_iff.1 h
  obtain ⟨l₁, l₂, hl, -, hset⟩ := @List.exists_of_set _ _ b _ hi
  have hfilter : l.filter p = (l₁ ++ l[i] :: l₂).filter p := congrArg (List.filter p) hl
  rw [hset, hfilter]
  simp only [List.filter_append, List.filter_cons, ha, hb, if_true, Bool.false_eq_true, if_false]
  exact List.perm_middle

theorem filter_set_drop {i : Nat} {a b : α} (h : l[i]? = some a) (ha : p a = true) (hb : p b = false) :
    (l.filter p).Perm (a :: (l.set i b).filter p) := by
  obtain ⟨hi, rfl⟩ := List.getElem?_eq_some_iff.1 h
  have hset : (l.set i b)[i]? = some b := List.getElem?_set_self hi
  have hback : (l.set i b).set i l[i] = l := by rw [List.set_set, List.set_getElem_self]
  have hadd := filter_set_add hset hb ha
  rwa [hback] at hadd

end BaseLib
