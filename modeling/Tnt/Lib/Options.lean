import Mathlib.Data.List.Induction
import Mathlib.Logic.Function.Basic
/-!
# Options of a command line

A program takes options from the front of its arguments, each with a value behind
it, until an argument is none. What it takes is any list of options with valid
values (`takeOptions_ok`), and of what an option sets, the last one counts
(`apply_last`).
-/

namespace BaseLib

/-- What options there are, the values they accept and what these set. -/
structure OptionSyntax (α κ σ : Type*) where
  kind : α → Option κ
  valid : κ → α → Bool
  set : κ → α → σ → σ

namespace OptionSyntax
variable {α κ σ ε : Type*} (o : OptionSyntax α κ σ)

/-- The options in front of the arguments are taken; `bad` is the error where a value is missing or not valid. -/
def takeOptions (bad : κ → α → Option α → ε) : σ → List α → Except ε (σ × List α)
  | s, [] => .ok (s, [])
  | s, arg :: args =>
    match o.kind arg with
    | none => .ok (s, arg :: args)
    | some k =>
      match args with
      | [] => .error (bad k arg none)
      | value :: args =>
        if o.valid k value then takeOptions bad (o.set k value s) args else .error (bad k arg (some value))

/-- An option with a valid value. -/
structure Given where
  kind : κ
  name : α
  value : α
  spelt : o.kind name = some kind
  valid : o.valid kind value = true

variable {o}

def Given.args (given : o.Given) : List α := [given.name, given.value]

/-- One option after another. -/
def apply (s : σ) (given : List o.Given) : σ := given.foldl (fun s given => o.set given.kind given.value s) s

/-- The arguments end, or go on with what is not an option. -/
def Ends (o : OptionSyntax α κ σ) (rest : List α) : Prop := ∀ arg ∈ rest.head?, o.kind arg = none

theorem takeOptions_given (bad : κ → α → Option α → ε) (s : σ) (given : List o.Given) {rest : List α}
    (h : o.Ends rest) :
    o.takeOptions bad s (given.flatMap Given.args ++ rest) = .ok (apply s given, rest) := by
  induction given generalizing s with
  | nil =>
    cases rest with
    | nil => rfl
    | cons arg rest =>
      have hnone : o.kind arg = none := h arg rfl
      simp only [List.flatMap_nil, List.nil_append, takeOptions, hnone, apply, List.foldl_nil]
  | cons given more ih =>
    have hargs : (given :: more).flatMap Given.args ++ rest =
        given.name :: given.value :: (more.flatMap Given.args ++ rest) := rfl
    rw [hargs, takeOptions, given.spelt]
    dsimp only
    rw [if_pos given.valid, ih]
    rfl

/-- Exactly the lists of options with valid values are taken. -/
theorem takeOptions_ok {bad : κ → α → Option α → ε} {s s' : σ} {argv rest : List α} :
    o.takeOptions bad s argv = .ok (s', rest) ↔
      ∃ given : List o.Given, argv = given.flatMap Given.args ++ rest ∧ o.Ends rest ∧ s' = apply s given := by
  constructor
  · intro h
    fun_induction takeOptions o bad s argv with
    | case1 s =>
      cases h
      exact ⟨[], rfl, nofun, rfl⟩
    | case2 s arg args hnone =>
      cases h
      exact ⟨[], rfl, fun first hfirst => Option.some.inj hfirst ▸ hnone, rfl⟩
    | case3 | case5 => cases h
    | case4 s arg k hkind value args hvalid ih =>
      obtain ⟨given, rfl, hends, hs⟩ := ih h
      exact ⟨⟨k, arg, value, hkind, hvalid⟩ :: given, rfl, hends, hs⟩
  · rintro ⟨given, rfl, hends, rfl⟩
    exact takeOptions_given bad s given hends

/-- What holds at first and is kept by every option holds of what they set. -/
theorem apply_induction {P : σ → Prop} (hset : ∀ s k value, P s → o.valid k value = true → P (o.set k value s)) {s : σ}
    (h : P s) (given : List o.Given) : P (apply s given) := by
  induction given generalizing s with
  | nil => exact h
  | cons given more ih => exact ih (hset s given.kind given.value h given.valid)

/-- What only one kind of option sets is as its last value says, or as it was. -/
theorem apply_last {β : Type*} [DecidableEq κ] {f : σ → β} {k : κ} {g : α → β}
    (hset : ∀ s value, o.valid k value = true → f (o.set k value s) = g value)
    (hother : ∀ s k' value, k' ≠ k → f (o.set k' value s) = f s) (s : σ) (given : List o.Given) :
    f (apply s given) = ((given.filter (·.kind = k)).getLast?.map (g ·.value)).getD (f s) := by
  induction given using List.reverseRecOn with
  | nil => rfl
  | append_singleton given last ih =>
    have happly : apply s (given ++ [last]) = o.set last.kind last.value (apply s given) := by
      rw [apply, List.foldl_append]
      rfl
    rw [happly, List.filter_append]
    by_cases hk : last.kind = k
    · have hlast : [last].filter (fun given => decide (given.kind = k)) = [last] := by simp [hk]
      rw [hlast, List.getLast?_concat, hk, hset _ _ (hk ▸ last.valid)]
      rfl
    · have hlast : [last].filter (fun given => decide (given.kind = k)) = [] := by simp [hk]
      rw [hlast, List.append_nil, hother _ _ _ hk, ih]

end OptionSyntax

end BaseLib
