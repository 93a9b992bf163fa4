import Mathlib.Data.List.Basic

/-! # A field that holds what runs

Subscriptions, timers: things that run until they are cancelled, of which a field holds the last one started.
Starting another does not cancel it, and what the field no longer holds cannot be cancelled any more.

`One` and `Off` are the two states in which the field and what runs agree; `one_take`, `live_cancel` and
`off_drop` lead from one to the other. `Tidy` is what they have in common: all that runs is held. -/

namespace Notely.Lib.Handles

/-- What is held, and what runs. -/
structure Slot where
  held : Option ℕ := none
  live : List ℕ := []
  fresh : ℕ := 0
  deriving DecidableEq

namespace Slot

/-- Another one is started, and held. -/
def take (h : Slot) : Slot where
  held := some h.fresh
  live := h.fresh :: h.live
  fresh := h.fresh + 1

/-- The one held, if any, is cancelled. -/
def cancel (h : Slot) : Slot := { h with live := h.live.filter fun n => h.held ≠ some n }

/-- None is held any more. -/
def drop (h : Slot) : Slot := { h with held := none }

/-- Nothing runs, nothing is held. -/
def Off (h : Slot) : Prop := h.held = none ∧ h.live = []

/-- The one held runs, and no other. -/
def One (h : Slot) : Prop := ∃ n, h.held = some n ∧ h.live = [n]

/-- All that runs is held. -/
def Tidy (h : Slot) : Prop := ∀ n ∈ h.live, h.held = some n

variable {h : Slot}

theorem One.tidy (ho : h.One) : h.Tidy := by
  obtain ⟨n, hheld, hlive⟩ := ho
  intro m hm
  rw [hlive, List.mem_singleton] at hm
  rw [hheld, hm]

theorem Tidy.live_cancel (ht : h.Tidy) : h.cancel.live = [] := by
  rw [cancel, List.filter_eq_nil_iff]
  intro n hn
  simp [ht n hn]

theorem tidy_of_idle (hl : h.live = []) : h.Tidy := by simp [Tidy, hl]

theorem one_take (hl : h.live = []) : h.take.One := ⟨h.fresh, rfl, by rw [take, hl]⟩

theorem live_cancel (ho : h.One) : h.cancel.live = [] := ho.tidy.live_cancel

theorem off_drop (hl : h.live = []) : h.drop.Off := ⟨rfl, hl⟩

end Slot

end Notely.Lib.Handles
