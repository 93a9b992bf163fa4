import Mathlib.Tactic.Common

/-! # Runs of a labelled step function

A system is a partial step function `step : σ → α → Option σ`: `step s a` is the state after the
action `a`, `none` if `a` is not possible in `s`. A *side condition* `ok s a` speaks of the state
before a step and of its action; `Reach step ok s₀ s` says that `s` is reached from `s₀` by steps that
all meet it.

* `Reach.inv`: what holds at the start and is kept by every step meeting the condition holds in
  every state reached.
* `run`: the state after a list of actions, and `Along`, the side condition at each of its steps;
  both compute, and `Reach.of_run` turns a computed run into a reached state.
* `always_iff_along`: when a property holds all along a run.
* `trace`: what is noted along a run, with `inv_trace` and `forall_mem_trace`. -/

namespace Notely.Lib.Lts

variable {σ α : Type*}

/-- The states reached from `s₀` by steps meeting `ok`. -/
inductive Reach (step : σ → α → Option σ) (ok : σ → α → Prop) (s₀ : σ) : σ → Prop
  | init : Reach step ok s₀ s₀
  | step {s s' : σ} {a : α} (h : Reach step ok s₀ s) (hok : ok s a) (hs : step s a = some s') :
      Reach step ok s₀ s'

variable {step : σ → α → Option σ} {ok ok' : σ → α → Prop} {s₀ s s' : σ}

/-- **The invariant rule.** -/
theorem Reach.inv {I : σ → Prop} (h : Reach step ok s₀ s) (h0 : I s₀)
    (hstep : ∀ s a s', I s → ok s a → step s a = some s' → I s') : I s := by
  induction h with
  | init => exact h0
  | step _ hok hs ih => exact hstep _ _ _ ih hok hs

theorem Reach.mono (h : Reach step ok s₀ s) (himp : ∀ s a, ok s a → ok' s a) :
    Reach step ok' s₀ s := by
  induction h with
  | init => exact .init
  | step _ hok hs ih => exact .step ih (himp _ _ hok) hs

/-! ### Computed runs -/

/-- The state after a list of actions. -/
def run (step : σ → α → Option σ) : σ → List α → Option σ
  | s, [] => some s
  | s, a :: as => (step s a).bind (run step · as)

theorem run_append {as bs : List α} : run step s (as ++ bs) = (run step s as).bind (run step · bs) := by
  induction as generalizing s with
  | nil => rfl
  | cons a as ih =>
    rw [List.cons_append, run, run, Option.bind_assoc]
    exact congrArg _ (funext fun s => ih)

/-- Every step of the run meets the side condition. -/
def Along (step : σ → α → Option σ) (ok : σ → α → Prop) : σ → List α → Prop
  | _, [] => True
  | s, a :: as => ok s a ∧ (step s a).elim True (Along step ok · as)

instance decidableAlong (step : σ → α → Option σ) (ok : σ → α → Prop) [∀ s a, Decidable (ok s a)] :
    ∀ s as, Decidable (Along step ok s as)
  | _, [] => isTrue trivial
  | s, a :: as =>
    have : Decidable ((step s a).elim True (Along step ok · as)) :=
      match step s a with
      | none => isTrue trivial
      | some s' => decidableAlong step ok s' as
    inferInstanceAs (Decidable (_ ∧ _))

theorem along_of_forall {as : List α} (h : ∀ a ∈ as, ∀ s, ok s a) (s : σ) : Along step ok s as := by
  induction as generalizing s with
  | nil => trivial
  | cons a as ih =>
    refine ⟨h a (by simp) s, ?_⟩
    cases step s a with
    | none => trivial
    | some s' => exact ih (fun b hb => h b (by simp [hb])) s'

theorem along_append {as bs : List α} {s : σ} (ha : Along step ok s as)
    (hb : ∀ s', run step s as = some s' → Along step ok s' bs) : Along step ok s (as ++ bs) := by
  induction as generalizing s with
  | nil => exact hb s rfl
  | cons a as ih =>
    obtain ⟨hok, ha⟩ := ha
    refine ⟨hok, ?_⟩
    rw [run] at hb
    cases hst : step s a with
    | none => trivial
    | some s' =>
      rw [hst] at ha hb
      exact ih ha hb

theorem along_congr (h : ∀ s a, ok s a ↔ ok' s a) {as : List α} {s : σ} :
    Along step ok s as ↔ Along step ok' s as := by
  rw [show ok = ok' from funext fun s => funext fun a => propext (h s a)]

/-- Conditions that agree wherever an invariant holds are met along the same runs. -/
theorem along_iff_of_inv {I : σ → Prop} (hiff : ∀ s a s', I s → step s a = some s' → (ok s a ↔ ok' s a))
    (hkeep : ∀ s a s', I s → ok s a → step s a = some s' → I s') {as : List α} {s s' : σ} (h : I s)
    (hr : run step s as = some s') : Along step ok s as ↔ Along step ok' s as := by
  induction as generalizing s with
  | nil => exact Iff.rfl
  | cons a as ih =>
    simp only [run] at hr
    cases hst : step s a with
    | none => simp [hst] at hr
    | some s1 =>
      rw [hst] at hr
      unfold Along
      rw [hst, Option.elim_some, Option.elim_some, hiff s a s1 h hst]
      exact and_congr_right fun hok => ih (hkeep s a s1 h ((hiff s a s1 h hst).mpr hok) hst) hr

/-- A computed run carries on from a reached state. -/
theorem Reach.append : ∀ {as : List α} {s s' : σ}, Reach step ok s₀ s → Along step ok s as →
    run step s as = some s' → Reach step ok s₀ s'
  | [], s, s', hs, _, hr => by
    simp only [run, Option.some.injEq] at hr
    exact hr ▸ hs
  | a :: as, s, s', hs, ha, hr => by
    obtain ⟨hok, ha⟩ := ha
    simp only [run] at hr
    cases hst : step s a with
    | none => simp [hst] at hr
    | some s1 =>
      rw [hst] at ha hr
      exact Reach.append (.step hs hok hst) ha hr

theorem Reach.of_run {as : List α} (ha : Along step ok s₀ as) (hr : run step s₀ as = some s) :
    Reach step ok s₀ s :=
  Reach.append .init ha hr

/-! ### What holds all along a run -/

/-- The property holds in every state of the run. -/
def Always (step : σ → α → Option σ) (P : σ → Prop) : σ → List α → Prop
  | s, [] => P s
  | s, a :: as => P s ∧ (step s a).elim True (Always step P · as)

/-- It holds in the last one. -/
theorem Always.last {P : σ → Prop} : ∀ {as : List α} {s : σ}, Always step P s as → run step s as = some s' → P s'
  | [], s, h, hr => by
    cases hr
    exact h
  | a :: as, s, h, hr => by
    simp only [run] at hr
    unfold Always at h
    cases hst : step s a with
    | none => simp [hst] at hr
    | some s1 =>
      rw [hst] at h hr
      exact h.2.last hr

/-- **A property that the steps meeting the condition keep, and every other step breaks, holds all along a
run exactly if its steps meet the condition.** -/
theorem always_iff_along {I P : σ → Prop} (hP : ∀ s, I s → P s)
    (hkeep : ∀ s a s', I s → ok s a → step s a = some s' → I s')
    (hbreak : ∀ s a s', I s → ¬ ok s a → step s a = some s' → ¬ P s') :
    ∀ {as : List α} {s s' : σ}, I s → run step s as = some s' →
      (Always step P s as ↔ Along step ok s as)
  | [], s, s', hs, _ => ⟨fun _ => trivial, fun _ => hP s hs⟩
  | a :: as, s, s', hs, hr => by
    simp only [run] at hr
    cases hst : step s a with
    | none => simp [hst] at hr
    | some s1 =>
      rw [hst] at hr
      unfold Always Along
      rw [hst, Option.elim_some, Option.elim_some]
      by_cases hok : ok s a
      · have ih := always_iff_along hP hkeep hbreak (hkeep s a s1 hs hok hst) hr
        exact ⟨fun h => ⟨hok, ih.mp h.2⟩, fun h => ⟨hP s hs, ih.mpr h.2⟩⟩
      · refine ⟨fun h => absurd ?_ (hbreak s a s1 hs hok hst), fun h => absurd h.1 hok⟩
        cases as with
        | nil => exact h.2
        | cons b bs => exact h.2.1

/-! ### What is noted along a run -/

section Trace
variable {ν : Type*} {note : σ → α → List ν}

/-- The notes of the steps of a run. -/
def trace (step : σ → α → Option σ) (note : σ → α → List ν) : σ → List α → List ν
  | _, [] => []
  | s, a :: as => note s a ++ (step s a).elim [] (trace step note · as)

/-- **The invariant rule with notes.** -/
theorem inv_trace {I : σ → List ν → Prop} {can : α → Prop}
    (hstep : ∀ s l a s', I s l → can a → step s a = some s' → I s' (l ++ note s a)) :
    ∀ {as : List α} {s : σ} {l : List ν}, I s l → (∀ a ∈ as, can a) → run step s as = some s' →
      I s' (l ++ trace step note s as)
  | [], s, l, h, _, hr => by
    obtain rfl := Option.some.inj hr
    rwa [trace, List.append_nil]
  | a :: as, s, l, h, hcan, hr => by
    simp only [run] at hr
    cases hst : step s a with
    | none => simp [hst] at hr
    | some s1 =>
      rw [hst] at hr
      have h1 := hstep s l a s1 h (hcan a (by simp)) hst
      have h2 := inv_trace hstep h1 (fun b hb => hcan b (by simp [hb])) hr
      rwa [trace, hst, Option.elim_some, ← List.append_assoc]

/-- What holds of every note of a run is a side condition of its steps. -/
theorem forall_mem_trace {P : ν → Prop} : ∀ {as : List α} {s : σ},
    (∀ n ∈ trace step note s as, P n) ↔ Along step (fun s a => ∀ n ∈ note s a, P n) s as
  | [], s => by simp [trace, Along]
  | a :: as, s => by
    have htail : (∀ n ∈ (step s a).elim [] (trace step note · as), P n) ↔
        (step s a).elim True (Along step (fun s a => ∀ n ∈ note s a, P n) · as) := by
      cases step s a with
      | none => simp
      | some s' => exact forall_mem_trace
    simp only [trace, Along, List.forall_mem_append, htail]

end Trace

end Notely.Lib.Lts
