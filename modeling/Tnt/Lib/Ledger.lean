import Mathlib.Data.List.Nodup
/-!
# Who holds what

A set of resources in use, and a list of those that the variables of a program hold. The two balance when each
resource in use is held in exactly one place: then none is lost, and giving one back cannot take it from another
holder.
-/

namespace BaseLib

variable {α : Type*} {used used' : α → Prop} {held held' pre post : List α} {x : α}

/-- Every resource in use is held once, and nothing else is held. -/
structure Balanced (used : α → Prop) (held : List α) : Prop where
  nodup : held.Nodup
  used_iff : ∀ a, used a ↔ a ∈ held

theorem balanced_nil (h : ∀ a, ¬ used a) : Balanced used [] :=
  ⟨List.nodup_nil, fun a => iff_of_false (h a) List.not_mem_nil⟩

theorem Balanced.none_used (h : Balanced used []) (a : α) : ¬ used a := fun ha => List.not_mem_nil ((h.used_iff a).1 ha)

theorem Balanced.used_of_mem (h : Balanced used held) {a : α} (ha : a ∈ held) : used a := (h.used_iff a).2 ha

/-- It does not matter where a resource is held. -/
theorem Balanced.perm (h : Balanced used held) (hp : held.Perm held') : Balanced used held' :=
  ⟨hp.nodup_iff.1 h.nodup, fun a => (h.used_iff a).trans hp.mem_iff⟩

theorem Balanced.congr (h : Balanced used held) (hu : ∀ a, used' a ↔ used a) : Balanced used' held :=
  ⟨h.nodup, fun a => (hu a).trans (h.used_iff a)⟩

/-- A resource that was not in use is taken. -/
theorem Balanced.take (h : Balanced used held) (hx : ¬ used x) (hu : ∀ a, used' a ↔ a = x ∨ used a) :
    Balanced used' (x :: held) := by
  refine ⟨List.nodup_cons.2 ⟨fun hmem => hx (h.used_of_mem hmem), h.nodup⟩, fun a => ?_⟩
  rw [hu, h.used_iff, List.mem_cons]

/-- A resource is given back. -/
theorem Balanced.give (h : Balanced used (x :: held)) (hu : ∀ a, used' a ↔ a ≠ x ∧ used a) : Balanced used' held := by
  obtain ⟨hx, hn⟩ := List.nodup_cons.1 h.nodup
  refine ⟨hn, fun a => ?_⟩
  rw [hu, h.used_iff, List.mem_cons]
  constructor
  · rintro ⟨hne, rfl | ha⟩
    · exact absurd rfl hne
    · exact ha
  · intro ha
    exact ⟨fun he => hx (he ▸ ha), .inr ha⟩

theorem Balanced.give_mid (h : Balanced used (pre ++ x :: post)) (hu : ∀ a, used' a ↔ a ≠ x ∧ used a) :
    Balanced used' (pre ++ post) :=
  (h.perm List.perm_middle).give hu

end BaseLib
