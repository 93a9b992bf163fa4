import Mathlib.Order.Lattice

/-! # The earliest maximum of a list

The element a scan is left with that keeps the best so far and replaces it by a better one only: no element is
worth more, and those before it are worth less.

* `EarliestMax`: the earliest maximum, without the scan.
* `EarliestMax.snoc`, `EarliestMax.better`: one step of the scan. -/

namespace Notely.Lib.Maxima

variable {α β : Type*} [LinearOrder β] {worth : α → β} {l : List α} {x y : α}

/-- **The earliest of the elements that are worth most.** -/
structure EarliestMax (worth : α → β) (l : List α) (x : α) : Prop where
  most : ∀ y ∈ l, worth y ≤ worth x
  earliest : ∃ before after, l = before ++ x :: after ∧ ∀ y ∈ before, worth y < worth x

theorem EarliestMax.mem (h : EarliestMax worth l x) : x ∈ l := by
  obtain ⟨before, after, rfl, -⟩ := h.earliest
  exact List.mem_append_right before List.mem_cons_self

/-- The element looked at is not worth more: the best one stays. -/
theorem EarliestMax.snoc (h : EarliestMax worth l x) (hle : worth y ≤ worth x) : EarliestMax worth (l ++ [y]) x where
  most z hz := by
    rcases List.mem_append.mp hz with hz | hz
    · exact h.most z hz
    · rw [List.mem_singleton.mp hz]
      exact hle
  earliest := by
    obtain ⟨before, after, rfl, hbefore⟩ := h.earliest
    exact ⟨before, after ++ [y], by simp, hbefore⟩

/-- The element looked at is worth more than all before it. -/
theorem EarliestMax.better (h : ∀ z ∈ l, worth z < worth y) : EarliestMax worth (l ++ [y]) y where
  most z hz := by
    rcases List.mem_append.mp hz with hz | hz
    · exact (h z hz).le
    · rw [List.mem_singleton.mp hz]
  earliest := ⟨l, [], rfl, h⟩

end Notely.Lib.Maxima
