import Mathlib.Data.Option.Basic
/-!
# Runs of a partial step function

A system is a state, a type of events and `step : σ → ε → Option σ`, where
`none` means that the event cannot happen in that state. A run is a list of
events. Invariants are shown for one step and carried over a run by `exec_inv`,
or by `exec_inv_of_meets` where they need a condition on every step taken.
-/

namespace BaseLib

variable {σ ε : Type*}

/-- The state after a list of events, if each of them can happen in its turn. -/
def exec (step : σ → ε → Option σ) : σ → List ε → Option σ
  | s, [] => some s
  | s, e :: es => (step s e).bind (exec step · es)

/-- Every step of the run meets `P`, judged on the state before it. -/
def Meets (step : σ → ε → Option σ) (P : σ → ε → Prop) : σ → List ε → Prop
  | _, [] => True
  | s, e :: es => P s e ∧ ∀ s', step s e = some s' → Meets step P s' es

/-- A condition that can be decided at each step can be decided of a run. -/
instance Meets.decidable {step : σ → ε → Option σ} {P : σ → ε → Prop} [∀ s e, Decidable (P s e)] :
    (s : σ) → (es : List ε) → Decidable (Meets step P s es)
  | _, [] => .isTrue trivial
  | s, e :: es =>
    have : Decidable (∀ s' ∈ step s e, Meets step P s' es) :=
      match step s e with
      | none => .isTrue fun _ h => by cases h
      | some t =>
        have : Decidable (Meets step P t es) := Meets.decidable t es
        decidable_of_iff (Meets step P t es) ⟨fun h _ ht => Option.some.inj ht ▸ h, fun h => h t rfl⟩
    inferInstanceAs (Decidable (P s e ∧ ∀ s' ∈ step s e, Meets step P s' es))

/-- States some run reaches from `s`. -/
def Reachable (step : σ → ε → Option σ) (s s' : σ) : Prop := ∃ es, exec step s es = some s'

variable {step : σ → ε → Option σ} {P : σ → ε → Prop} {s s' : σ}

@[simp] theorem exec_nil : exec step s [] = some s := rfl

theorem exec_cons (e : ε) (es : List ε) :
    exec step s (e :: es) = (step s e).bind (exec step · es) := rfl

theorem exec_cons_some {e : ε} {es : List ε} (h : exec step s (e :: es) = some s') :
    ∃ t, step s e = some t ∧ exec step t es = some s' := by
  rw [exec_cons] at h
  exact Option.bind_eq_some_iff.1 h

theorem exec_append (es fs : List ε) :
    exec step s (es ++ fs) = (exec step s es).bind (exec step · fs) := by
  induction es generalizing s with
  | nil => rfl
  | cons e es ih =>
    simp only [List.cons_append, exec_cons, Option.bind_assoc]
    exact congrArg ((step s e).bind ·) (funext fun t => ih)

theorem Reachable.refl (s : σ) : Reachable step s s := ⟨[], rfl⟩

theorem Reachable.tail {t : σ} (h : Reachable step s t) {e : ε} (ht : step t e = some s') :
    Reachable step s s' := by
  obtain ⟨es, hes⟩ := h
  exact ⟨es ++ [e], by simp [exec_append, hes, exec_cons, ht]⟩

/-- An invariant kept by every step holds after every run. -/
theorem exec_inv (I : σ → Prop) (hs : ∀ s e s', I s → step s e = some s' → I s')
    {es : List ε} (h0 : I s) (h : exec step s es = some s') : I s' := by
  induction es generalizing s with
  | nil => cases h; exact h0
  | cons e es ih =>
    obtain ⟨t, ht, hes⟩ := exec_cons_some h
    exact ih (hs s e t h0 ht) hes

theorem Reachable.inv (I : σ → Prop) (hs : ∀ s e s', I s → step s e = some s' → I s')
    (h0 : I s) (h : Reachable step s s') : I s' := by
  obtain ⟨es, hes⟩ := h
  exact exec_inv I hs h0 hes

/-- An invariant kept by every step that meets `P` holds after every run whose
steps all do. -/
theorem exec_inv_of_meets (I : σ → Prop) (hs : ∀ s e s', I s → P s e → step s e = some s' → I s')
    {es : List ε} (h0 : I s) (hm : Meets step P s es) (h : exec step s es = some s') : I s' := by
  induction es generalizing s with
  | nil => cases h; exact h0
  | cons e es ih =>
    obtain ⟨t, ht, hes⟩ := exec_cons_some h
    exact ih (hs s e t h0 hm.1 ht) (hm.2 t ht) hes

theorem Meets.mono {Q : σ → ε → Prop} (h : ∀ s e, P s e → Q s e) {es : List ε}
    (hm : Meets step P s es) : Meets step Q s es := by
  induction es generalizing s with
  | nil => trivial
  | cons e es ih => exact ⟨h s e hm.1, fun t ht => ih (hm.2 t ht)⟩

theorem Meets.and {Q : σ → ε → Prop} {es : List ε} (hp : Meets step P s es) (hq : Meets step Q s es) :
    Meets step (fun s e => P s e ∧ Q s e) s es := by
  induction es generalizing s with
  | nil => trivial
  | cons e es ih => exact ⟨⟨hp.1, hq.1⟩, fun t ht => ih (hp.2 t ht) (hq.2 t ht)⟩

/-- A condition on the events alone. -/
theorem meets_of_forall {Q : ε → Prop} {es : List ε} (h : ∀ e ∈ es, Q e) : Meets step (fun _ e => Q e) s es := by
  induction es generalizing s with
  | nil => trivial
  | cons e es ih => exact ⟨h e List.mem_cons_self, fun t _ => ih fun f hf => h f (List.mem_cons_of_mem _ hf)⟩

/-- What an invariant gives at each step holds along the run. -/
theorem meets_of_inv {Q : σ → ε → Prop} (I : σ → Prop)
    (hs : ∀ s e s', I s → P s e → step s e = some s' → I s') (hq : ∀ s e, I s → P s e → Q s e)
    {es : List ε} (h0 : I s) (hm : Meets step P s es) : Meets step Q s es := by
  induction es generalizing s with
  | nil => trivial
  | cons e es ih => exact ⟨hq s e h0 hm.1, fun t ht => ih (hs s e t h0 hm.1 ht) (hm.2 t ht)⟩

/-- Under an invariant, two conditions that each step meets both or neither hold of the same runs. -/
theorem meets_congr_of_inv {Q : σ → ε → Prop} (I : σ → Prop) (hs : ∀ s e s', I s → step s e = some s' → I s')
    (hpq : ∀ s e, I s → (P s e ↔ Q s e)) {es : List ε} (h0 : I s) : Meets step P s es ↔ Meets step Q s es := by
  induction es generalizing s with
  | nil => exact Iff.rfl
  | cons e es ih =>
    apply and_congr (hpq s e h0)
    apply forall_congr'
    intro t
    exact imp_congr_right fun ht => ih (hs s e t h0 ht)

/-- What an observer hears along a run who hears `label s e` of the step `e` from `s`. -/
def heard {κ : Type*} (step : σ → ε → Option σ) (label : σ → ε → List κ) : σ → List ε → List κ
  | _, [] => []
  | s, e :: es => label s e ++ (step s e).elim [] (heard step label · es)

/-- An observer who keeps up with each step that meets `P` keeps up with a run whose steps all do. -/
theorem exec_heard_of_meets {κ τ : Type*} {label : σ → ε → List κ} {act : τ → κ → τ} (R : σ → τ → Prop)
    (hs : ∀ s e s' t, R s t → P s e → step s e = some s' → R s' ((label s e).foldl act t)) {es : List ε} {t : τ}
    (h0 : R s t) (hm : Meets step P s es) (h : exec step s es = some s') :
    R s' ((heard step label s es).foldl act t) := by
  induction es generalizing s t with
  | nil => cases h; exact h0
  | cons e es ih =>
    obtain ⟨u, hu, hes⟩ := exec_cons_some h
    rw [heard, hu, List.foldl_append]
    exact ih (hs s e u t h0 hm.1 hu) (hm.2 u hu) hes

/-- An observer who keeps up with each step keeps up with a run. -/
theorem exec_heard {κ τ : Type*} {label : σ → ε → List κ} {act : τ → κ → τ} (R : σ → τ → Prop)
    (hs : ∀ s e s' t, R s t → step s e = some s' → R s' ((label s e).foldl act t)) {es : List ε} {t : τ}
    (h0 : R s t) (h : exec step s es = some s') : R s' ((heard step label s es).foldl act t) :=
  exec_heard_of_meets (P := fun _ _ => True) R (fun s e s' t hR _ => hs s e s' t hR) h0
    (meets_of_forall (Q := fun _ => True) fun _ _ => trivial) h

/-- What one observer hears of each step is part of what another hears. -/
theorem heard_sublist {κ : Type*} {label label' : σ → ε → List κ} (hs : ∀ s e, (label s e).Sublist (label' s e))
    (s : σ) (es : List ε) : (heard step label s es).Sublist (heard step label' s es) := by
  induction es generalizing s with
  | nil => exact List.Sublist.refl _
  | cons e es ih =>
    apply (hs s e).append
    cases step s e with
    | none => exact List.Sublist.refl _
    | some t => exact ih t

/-- A store that each step fills at its end and empties at its front gives out what it got, in order. -/
theorem exec_lossless {κ : Type*} {ins outs : σ → ε → List κ} (R : σ → List κ → Prop)
    (hs : ∀ s e s' xs, R s xs → step s e = some s' → ∃ ys, R s' ys ∧ xs ++ ins s e = outs s e ++ ys)
    {es : List ε} {xs : List κ} (h0 : R s xs) (h : exec step s es = some s') :
    ∃ ys, R s' ys ∧ xs ++ heard step ins s es = heard step outs s es ++ ys := by
  induction es generalizing s xs with
  | nil =>
    cases h
    exact ⟨xs, h0, by simp [heard]⟩
  | cons e es ih =>
    obtain ⟨t, ht, hes⟩ := exec_cons_some h
    obtain ⟨ys, hR, hfirst⟩ := hs s e t xs h0 ht
    obtain ⟨zs, hR', hrest⟩ := ih hR hes
    refine ⟨zs, hR', ?_⟩
    simp only [heard, ht, Option.elim_some]
    rw [← List.append_assoc, hfirst, List.append_assoc, hrest, List.append_assoc]

/-- The events of a list that can happen in their turn, when those that cannot are passed over. -/
def enabled (step : σ → ε → Option σ) : σ → List ε → List ε
  | _, [] => []
  | s, e :: es => (step s e).elim (enabled step s es) fun t => e :: enabled step t es

theorem exec_enabled (step : σ → ε → Option σ) (s : σ) (es : List ε) :
    ∃ t, exec step s (enabled step s es) = some t := by
  induction es generalizing s with
  | nil => exact ⟨s, rfl⟩
  | cons e es ih =>
    unfold enabled
    cases h : step s e with
    | none => exact ih s
    | some t =>
      obtain ⟨u, hu⟩ := ih t
      exact ⟨u, by rw [Option.elim_some, exec_cons, h, Option.bind_some, hu]⟩

theorem heard_enabled_none {κ : Type*} (label : σ → ε → List κ) {e : ε} (h : step s e = none) (es : List ε) :
    heard step label s (enabled step s (e :: es)) = heard step label s (enabled step s es) := by
  rw [enabled, h, Option.elim_none]

theorem heard_enabled_some {κ : Type*} (label : σ → ε → List κ) {e : ε} (h : step s e = some s') (es : List ε) :
    heard step label s (enabled step s (e :: es)) = label s e ++ heard step label s' (enabled step s' es) := by
  rw [enabled, h, Option.elim_some, heard, h, Option.elim_some]

/-- A run whose steps all meet `P` meets it wherever it is cut. -/
theorem meets_iff {es : List ε} :
    Meets step P s es ↔ ∀ pre e suf, es = pre ++ e :: suf → ∀ t, exec step s pre = some t → P t e := by
  induction es generalizing s with
  | nil => simp [Meets]
  | cons e es ih =>
    constructor
    · intro h pre d suf hsplit t ht
      cases pre with
      | nil =>
        obtain ⟨rfl, -⟩ := List.cons.inj hsplit
        cases ht
        exact h.1
      | cons c pre =>
        obtain ⟨rfl, htail⟩ := List.cons.inj hsplit
        obtain ⟨u, hu, ht⟩ := exec_cons_some ht
        exact ih.1 (h.2 u hu) pre d suf htail t ht
    · intro h
      refine ⟨h [] e es rfl s rfl, fun u hu => ih.2 fun pre d suf hsplit t ht => ?_⟩
      exact h (e :: pre) d suf (by rw [hsplit, List.cons_append]) t (by rw [exec_cons, hu]; exact ht)

theorem meets_append {es fs : List ε} :
    Meets step P s (es ++ fs) ↔ Meets step P s es ∧ ∀ t, exec step s es = some t → Meets step P t fs := by
  induction es generalizing s with
  | nil => simp [Meets]
  | cons e es ih =>
    simp only [List.cons_append, Meets, ih, exec_cons, Option.bind_eq_some_iff]
    constructor
    · rintro ⟨hp, h⟩
      exact ⟨⟨hp, fun t ht => (h t ht).1⟩, fun u ⟨t, ht, hu⟩ => (h t ht).2 u hu⟩
    · rintro ⟨⟨hp, h⟩, h2⟩
      exact ⟨hp, fun t ht => ⟨h t ht, fun u hu => h2 u ⟨t, ht, hu⟩⟩⟩

end BaseLib
