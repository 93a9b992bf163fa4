import Notely.Lib.Programs

/-! # Monitors of programs

A monitor watches the operations of a program: in each of its states it permits some operations, and an
operation with its reply takes it to the next state. A program is *safe* if whatever is replied it only
performs what is permitted, so safety speaks of the program alone and holds however its operations are
answered: in a run by itself, or step by step among other programs.

* `safe_bind`: the rule of sequence; `try_bind` for programs that can fail.
* `safe_run`: what is related to the state of the monitor along a run. -/

namespace Notely.Lib.Monitors

open Notely.Lib.Programs

/-- What is permitted in a state, and the state after an operation and its reply. -/
structure Monitor (F : Type → Type) (Γ : Type) where
  permits : {β : Type} → Γ → F β → Prop
  next : {β : Type} → Γ → F β → β → Γ

variable {F : Type → Type} {Γ α β σ ε : Type} {M : Monitor F Γ} {g : Γ}

/-- Whatever is replied, the program only performs what is permitted, and ends with a value and a state of
the monitor meeting `Q`. -/
def Safe (M : Monitor F Γ) : Prog F α → Γ → (α → Γ → Prop) → Prop
  | .ret a, g, Q => Q a g
  | .call o k, g, Q => M.permits g o ∧ ∀ r, Safe M (k r) (M.next g o r) Q

section Rules
variable {x : Prog F α} {f : α → Prog F β} {Q Q' : α → Γ → Prop} {R : β → Γ → Prop}

theorem safe_pure {a : α} (h : Q a g) : Safe M (pure a) g Q := h

theorem safe_perform {o : F α} (hp : M.permits g o) (h : ∀ r, Q r (M.next g o r)) :
    Safe M (perform o) g Q := ⟨hp, h⟩

theorem Safe.mono (hx : Safe M x g Q) (h : ∀ a g', Q a g' → Q' a g') : Safe M x g Q' := by
  induction x generalizing g with
  | ret a => exact h a g hx
  | call o k ih => exact ⟨hx.1, fun r => ih r (hx.2 r)⟩

/-- **The rule of sequence.** -/
theorem safe_bind (hx : Safe M x g fun a g' => Safe M (f a) g' R) : Safe M (x >>= f) g R := by
  change Safe M (x.bind f) g R
  induction x generalizing g with
  | ret a => exact hx
  | call o k ih => exact ⟨hx.1, fun r => ih r (hx.2 r)⟩

end Rules

/-! ### Programs that can fail -/

/-- A safe program that ends with a value and a state meeting `Q`, or with an error and a state meeting `E`. -/
def Try (M : Monitor F Γ) (x : ExceptT ε (Prog F) α) (g : Γ) (Q : α → Γ → Prop) (E : ε → Γ → Prop) : Prop :=
  Safe M x.run g fun r g' => match r with
    | .ok a => Q a g'
    | .error e => E e g'

section Try
variable {x : ExceptT ε (Prog F) α} {f : α → ExceptT ε (Prog F) β} {Q Q' : α → Γ → Prop} {R : β → Γ → Prop}
  {E E' : ε → Γ → Prop}

theorem try_pure {a : α} (h : Q a g) : Try M (pure a : ExceptT ε (Prog F) α) g Q E := h

theorem try_throw {e : ε} (h : E e g) : Try M (throw e : ExceptT ε (Prog F) α) g Q E := h

theorem try_lift {o : F α} (hp : M.permits g o) (h : ∀ r, Q r (M.next g o r)) :
    Try M (ExceptT.lift (perform o) : ExceptT ε (Prog F) α) g Q E := ⟨hp, h⟩

theorem Try.mono (hx : Try M x g Q E) (hQ : ∀ a g', Q a g' → Q' a g') (hE : ∀ e g', E e g' → E' e g') :
    Try M x g Q' E' := by
  refine Safe.mono hx fun r g' h => ?_
  cases r with
  | ok a => exact hQ a g' h
  | error e => exact hE e g' h

/-- **The rule of sequence** for programs that can fail. -/
theorem try_bind (hx : Try M x g (fun a g' => Try M (f a) g' R E) E) : Try M (x >>= f) g R E := by
  change Safe M (x.run >>= ExceptT.bindCont f) g _
  refine safe_bind (Safe.mono hx fun r g' h => ?_)
  cases r with
  | ok a => exact h
  | error e => exact safe_pure h

/-- A computation that takes the monitor to one state, then the rest. -/
theorem try_seq {g' : Γ} (hx : Try M x g (fun _ g1 => g1 = g') E) (hf : ∀ a, Try M (f a) g' R E) :
    Try M (x >>= f) g R E :=
  try_bind (hx.mono (fun a _ h => h ▸ hf a) fun _ _ h => h)

end Try

/-! ### Runs -/

/-- **Along a run the state stays related to that of the monitor**, if every permitted operation keeps
them related. -/
theorem safe_run {x : Prog F α} {h : Handler F σ} {R : σ → Γ → Prop} {Q : α → Γ → Prop} {s : σ}
    (hR : ∀ {β : Type} (o : F β) s g, R s g → M.permits g o → R (h o s).2 (M.next g o (h o s).1))
    (hx : Safe M x g Q) (hs : R s g) : ∃ g', R (x.run h s).2 g' ∧ Q (x.run h s).1 g' := by
  induction x generalizing s g with
  | ret a => exact ⟨g, hs, hx⟩
  | call o k ih => exact ih _ (hx.2 _) (hR o s g hs hx.1)

end Notely.Lib.Monitors
