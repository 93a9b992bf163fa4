import Mathlib.Data.Int.Order.Basic

/-! # Time spent in a state

A machine that is called at readings of a clock which does not go back: `step s t a` is the state after the call `a` at
the reading `t`. Between two calls the state stays; calls at one reading follow each other at once. Time is counted in
ticks of the clock.

* `stateAt`: the state at a time.
* `timeIn`: how long something holds, from one time to another.
* `timeIn_concat`: what one more call makes of the time spent in some of the states. -/

namespace Notely.Lib.Timelines

section Calls
variable {σ α : Type*} (step : σ → ℤ → α → σ)

/-- The state after the calls. -/
def after (s : σ) (calls : List (ℤ × α)) : σ := calls.foldl (fun s c => step s c.1 c.2) s

/-- The readings do not go back. -/
def Ordered (calls : List (ℤ × α)) : Prop := calls.Pairwise fun c d => c.1 ≤ d.1

/-- The state at a time: that after the calls up to it. -/
def stateAt (s : σ) (calls : List (ℤ × α)) (u : ℤ) : σ := after step s (calls.filter fun c => c.1 ≤ u)

variable {s : σ} {calls : List (ℤ × α)} {t u : ℤ} {a : α}

theorem after_concat : after step s (calls ++ [(t, a)]) = step (after step s calls) t a := by simp [after]

theorem ordered_concat : Ordered (calls ++ [(t, a)]) ↔ Ordered calls ∧ ∀ c ∈ calls, c.1 ≤ t := by
  simp [Ordered, List.pairwise_append]

theorem le_of_concat (hlast : ∀ c ∈ calls, c.1 ≤ t) : ∀ c ∈ calls ++ [(t, a)], c.1 ≤ t := by
  intro c hc
  rcases List.mem_append.mp hc with hc | hc
  · exact hlast c hc
  · rw [List.mem_singleton.mp hc]

/-- The last state stays. -/
theorem stateAt_of_le (h : ∀ c ∈ calls, c.1 ≤ u) : stateAt step s calls u = after step s calls := by
  unfold stateAt
  rw [List.filter_eq_self.mpr fun c hc => decide_eq_true (h c hc)]

/-- A call does not change what was before. -/
theorem stateAt_concat_of_lt (h : u < t) : stateAt step s (calls ++ [(t, a)]) u = stateAt step s calls u := by
  have hlater : ¬ t ≤ u := not_le.mpr h
  simp [stateAt, List.filter_append, hlater]

end Calls

/-! ### Time spent -/

section Time
variable {p q : ℤ → Prop} [DecidablePred p] [DecidablePred q] {a b c : ℤ}

/-- How long `p` holds, from `a` to `b`. -/
def timeIn (p : ℤ → Prop) [DecidablePred p] (a b : ℤ) : ℕ := (List.range (b - a).toNat).countP fun i : ℕ => p (a + i)

/-- A tick between two times. -/
theorem add_mem_Ico {i : ℕ} (hi : i ∈ List.range (b - a).toNat) : a ≤ a + i ∧ a + i < b := by
  have hlt := List.mem_range.mp hi
  omega

theorem timeIn_congr (h : ∀ u, a ≤ u → u < b → (p u ↔ q u)) : timeIn p a b = timeIn q a b := by
  refine List.countP_congr fun i hi => ?_
  obtain ⟨hle, hlt⟩ := add_mem_Ico hi
  rw [decide_eq_true_iff, decide_eq_true_iff, h _ hle hlt]

theorem timeIn_add (hab : a ≤ b) (hbc : b ≤ c) : timeIn p a c = timeIn p a b + timeIn p b c := by
  have hlen : (c - a).toNat = (b - a).toNat + (c - b).toNat := by omega
  have htick : ∀ i : ℕ, a + ((b - a).toNat + i : ℕ) = b + i := by
    intro i
    omega
  unfold timeIn
  rw [hlen, List.range_add, List.countP_append, List.countP_map]
  congr 2
  funext i
  show decide (p (a + ((b - a).toNat + i : ℕ))) = _
  rw [htick]

/-- What holds all the time, or never. -/
theorem timeIn_const (r : Prop) [Decidable r] (hab : a ≤ b) (h : ∀ u, a ≤ u → u < b → (p u ↔ r)) :
    (timeIn p a b : ℤ) = if r then b - a else 0 := by
  rw [timeIn_congr h]
  unfold timeIn
  split_ifs with hr
  · simp only [hr, decide_true, List.countP_true, List.length_range]
    omega
  · simp [hr]

end Time

/-! ### Time spent in some of the states -/

section Spent
variable {σ α : Type*} {step : σ → ℤ → α → σ} {s : σ} {calls : List (ℤ × α)} {t now start : ℤ} {a : α}
  (Q : σ → Prop) [DecidablePred Q]

/-- Since the last call. -/
theorem timeIn_since (hlast : ∀ c ∈ calls, c.1 ≤ t) (hnow : t ≤ now) :
    (timeIn (fun u => Q (stateAt step s calls u)) t now : ℤ) = if Q (after step s calls) then now - t else 0 := by
  refine timeIn_const _ hnow fun u hu _ => ?_
  rw [stateAt_of_le step fun c hc => le_trans (hlast c hc) hu]

/-- **One more call adds nothing, and what is after it counts for the new state.** -/
theorem timeIn_concat (hlast : ∀ c ∈ calls, c.1 ≤ t) (hstart : start ≤ t) (hnow : t ≤ now) :
    (timeIn (fun u => Q (stateAt step s (calls ++ [(t, a)]) u)) start now : ℤ) =
      timeIn (fun u => Q (stateAt step s calls u)) start t +
        if Q (after step s (calls ++ [(t, a)])) then now - t else 0 := by
  rw [timeIn_add hstart hnow, Int.natCast_add, timeIn_since Q (le_of_concat hlast) hnow]
  congr 2
  exact timeIn_congr fun u _ hu => by rw [stateAt_concat_of_lt step hu]

end Spent

end Notely.Lib.Timelines
