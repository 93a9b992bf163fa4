import Mathlib.Tactic.Common

/-! # Batches of statements, cut anywhere

A program runs batches of statements one after the other; a crash may come after any statement. `cutAt`
tells which batch is cut, and after how many of its statements, and `take_cases` says that a crashed run
is a run of whole batches and a part of the one cut. -/

namespace Notely.Lib.Batches

variable {γ σ : Type*} (stmts : γ → List σ)

/-- The batch of which some, but not all, statements are among the first `n`, with their number. -/
def cutAt : List γ → ℕ → Option (γ × ℕ)
  | [], _ => none
  | g :: gs, n =>
    if n = 0 then none
    else if n < (stmts g).length then some (g, n)
    else cutAt gs (n - (stmts g).length)

/-- **A crashed run is a run of whole batches and a part of the one cut.** -/
theorem take_cases (gs : List γ) (n : ℕ) :
    (∃ front back, gs = front ++ back ∧ cutAt stmts gs n = none ∧
      (gs.flatMap stmts).take n = front.flatMap stmts) ∨
    ∃ front g back k, gs = front ++ g :: back ∧ cutAt stmts gs n = some (g, k) ∧
      0 < k ∧ k < (stmts g).length ∧
      (gs.flatMap stmts).take n = front.flatMap stmts ++ (stmts g).take k := by
  induction gs generalizing n with
  | nil => exact Or.inl ⟨[], [], rfl, rfl, by simp⟩
  | cons g gs ih =>
    rw [List.flatMap_cons, List.take_append, cutAt]
    by_cases hz : n = 0
    · subst hz
      exact Or.inl ⟨[], g :: gs, rfl, by simp, by simp⟩
    by_cases hn : n < (stmts g).length
    · refine Or.inr ⟨[], g, gs, n, rfl, by simp [hz, hn], by omega, hn, ?_⟩
      rw [show n - (stmts g).length = 0 by omega]
      simp
    · rw [if_neg hz, if_neg hn, List.take_of_length_le (by omega)]
      rcases ih (n - (stmts g).length) with ⟨front, back, rfl, hc, ht⟩ |
        ⟨front, h, back, k, rfl, hc, h0, hk, ht⟩
      · exact Or.inl ⟨g :: front, back, rfl, hc, by rw [ht, List.flatMap_cons]⟩
      · refine Or.inr ⟨g :: front, h, back, k, rfl, hc, h0, hk, ?_⟩
        rw [ht, List.flatMap_cons, List.append_assoc]

end Notely.Lib.Batches
