import Mathlib.Tactic.TypeStar
/-!
# Copies of a value that is numbered

A value others change carries a number that each change raises. A copy is as new
as the number it was taken with, so a reader that compares numbers knows whether
its copy is the present value, as long as the number it remembers is not newer
than its copy.
-/

namespace BaseLib

variable {α : Type*}

/-- A value and the number of changes made to it. -/
structure Versioned (α : Type*) where
  value : α
  version : Nat
  deriving DecidableEq

namespace Versioned

variable {v c : Versioned α}

/-- A change raises the number. -/
def update (v : Versioned α) (f : α → α) : Versioned α := ⟨f v.value, v.version + 1⟩

/-- The copy was taken of the value as it is or as it was before. -/
structure Copied (v c : Versioned α) : Prop where
  le : c.version ≤ v.version
  eq_of_version : c.version = v.version → c = v

theorem Copied.refl (v : Versioned α) : v.Copied v := ⟨Nat.le_refl _, fun _ => rfl⟩

theorem Copied.version_lt_update (h : v.Copied c) (f : α → α) : c.version < (v.update f).version :=
  Nat.lt_succ_of_le h.le

/-- A copy of what was before a change stays one. -/
theorem Copied.update (h : v.Copied c) (f : α → α) : (v.update f).Copied c where
  le := Nat.le_of_lt (h.version_lt_update f)
  eq_of_version he := absurd he (Nat.ne_of_lt (h.version_lt_update f))

/-- It is not one of the value after the change. -/
theorem Copied.ne_update (h : v.Copied c) (f : α → α) : c ≠ v.update f := by
  intro he
  exact Nat.ne_of_lt (h.version_lt_update f) (congrArg version he)

/-- A reader whose number is not newer than its copy, and is the present one, has the present
value. -/
theorem Copied.current (h : v.Copied c) {seen : Nat} (hle : seen ≤ c.version) (hseen : seen = v.version) :
    c = v :=
  h.eq_of_version (Nat.le_antisymm h.le (hseen ▸ hle))

end Versioned

end BaseLib
