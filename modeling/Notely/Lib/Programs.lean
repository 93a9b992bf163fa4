import Mathlib.Tactic.Common

/-! # Programs over operations

A program either ends with a value or performs an operation and goes on with the reply; what the
operations do is left to those who run it. So one program can be run by itself (`run`, by a handler that
answers every operation and changes a state) or step by step among others.

* `run_bind`: running one program after another.
* `run_inv`: what every operation keeps, a run keeps.
* `Ends`: what holds where a program that can fail ends, with its rule of sequence `ends_bind`. -/

namespace Notely.Lib.Programs

/-- A program performing operations of `F`, where the reply to an operation of `F β` is a `β`. -/
inductive Prog (F : Type → Type) (α : Type) : Type 1
  | ret (a : α)
  | call {β : Type} (o : F β) (k : β → Prog F α)

variable {F : Type → Type} {α β σ : Type}

/-- One program, then another. -/
def Prog.bind : Prog F α → (α → Prog F β) → Prog F β
  | .ret a, f => f a
  | .call o k, f => .call o fun r => (k r).bind f

instance : Monad (Prog F) where
  pure := .ret
  bind := Prog.bind

/-- One operation. -/
def perform (o : F α) : Prog F α := .call o .ret

/-- What answers an operation in a state. -/
abbrev Handler (F : Type → Type) (σ : Type) := {β : Type} → F β → σ → β × σ

/-- The value and the state a program ends with. -/
def Prog.run (h : Handler F σ) : Prog F α → σ → α × σ
  | .ret a, s => (a, s)
  | .call o k, s => (k (h o s).1).run h (h o s).2

section Run
variable {h : Handler F σ} {x : Prog F α} {f : α → Prog F β} {s : σ}

@[simp] theorem run_pure {a : α} : (pure a : Prog F α).run h s = (a, s) := rfl

@[simp] theorem run_perform {o : F α} : (perform o).run h s = h o s := rfl

theorem run_bind : (x >>= f).run h s = (f (x.run h s).1).run h (x.run h s).2 := by
  change (x.bind f).run h s = _
  induction x generalizing s with
  | ret a => rfl
  | call o k ih => exact ih _

/-- **What every operation keeps, a run keeps.** -/
theorem run_inv {I : σ → Prop} (hop : ∀ {β : Type} (o : F β) s, I s → I (h o s).2) (hs : I s) : I (x.run h s).2 := by
  induction x generalizing s with
  | ret a => exact hs
  | call o k ih => exact ih _ (hop o s hs)

end Run

/-! ### Notes of a run -/

section Notes
variable {ν : Type}

/-- A handler that notes what it answers, with the state it is asked in. -/
def noting (h : Handler F σ) (note : {β : Type} → σ → F β → β → List ν) : Handler F (σ × List ν) := fun o s =>
  ((h o s.1).1, (h o s.1).2, s.2 ++ note s.1 o (h o s.1).1)

/-- Taking notes changes nothing else. -/
theorem run_noting {h : Handler F σ} {note : {β : Type} → σ → F β → β → List ν} {x : Prog F α} {s : σ} {l : List ν} :
    (x.run (noting h note) (s, l)).1 = (x.run h s).1 ∧ (x.run (noting h note) (s, l)).2.1 = (x.run h s).2 := by
  induction x generalizing s l with
  | ret a => exact ⟨rfl, rfl⟩
  | call o k ih => exact ih _

end Notes

/-! ### Programs that can fail -/

section Except
variable {ε : Type} {h : Handler F σ} {s : σ}

/-- The outcome and the state a program that can fail ends with. -/
def exec (h : Handler F σ) (x : ExceptT ε (Prog F) α) (s : σ) : Except ε α × σ := x.run.run h s

@[simp] theorem exec_pure {a : α} : exec h (pure a : ExceptT ε (Prog F) α) s = (.ok a, s) := rfl

@[simp] theorem exec_throw {e : ε} : exec h (throw e : ExceptT ε (Prog F) α) s = (.error e, s) := rfl

@[simp] theorem exec_lift {o : F α} :
    exec h (ExceptT.lift (perform o) : ExceptT ε (Prog F) α) s = (.ok (h o s).1, (h o s).2) := rfl

theorem exec_bind {x : ExceptT ε (Prog F) α} {f : α → ExceptT ε (Prog F) β} :
    exec h (x >>= f) s =
      match exec h x s with
      | (.ok a, s') => exec h (f a) s'
      | (.error e, s') => (.error e, s') := by
  change Prog.run h (x.run >>= ExceptT.bindCont f) s = _
  rw [run_bind]
  unfold exec
  rcases x.run.run h s with ⟨e | a, s'⟩ <;> rfl

/-- The program ends with a value and a state meeting `P`, or with an error and a state meeting `E`. -/
def Ends (h : Handler F σ) (x : ExceptT ε (Prog F) α) (s : σ) (P : α → σ → Prop) (E : ε → σ → Prop) : Prop :=
  match exec h x s with
  | (.ok a, s') => P a s'
  | (.error e, s') => E e s'

section Rules
variable {x : ExceptT ε (Prog F) α} {f : α → ExceptT ε (Prog F) β} {P P' : α → σ → Prop} {E E' : ε → σ → Prop}
  {Q : β → σ → Prop}

theorem ends_pure {a : α} (hp : P a s) : Ends h (pure a : ExceptT ε (Prog F) α) s P E := hp

theorem ends_throw {e : ε} (he : E e s) : Ends h (throw e : ExceptT ε (Prog F) α) s P E := he

theorem ends_lift {o : F α} (hp : P (h o s).1 (h o s).2) :
    Ends h (ExceptT.lift (perform o) : ExceptT ε (Prog F) α) s P E := hp

/-- **The rule of sequence.** -/
theorem ends_bind (hx : Ends h x s (fun a s' => Ends h (f a) s' Q E) E) : Ends h (x >>= f) s Q E := by
  unfold Ends at hx ⊢
  rw [exec_bind]
  rcases he : exec h x s with ⟨e | a, s'⟩
  · simpa only [he] using hx
  · simpa only [he] using hx

theorem Ends.mono (hx : Ends h x s P E) (hP : ∀ a s', P a s' → P' a s') (hE : ∀ e s', E e s' → E' e s') :
    Ends h x s P' E' := by
  unfold Ends at hx ⊢
  rcases he : exec h x s with ⟨e | a, s'⟩
  · exact hE e s' (by simpa only [he] using hx)
  · exact hP a s' (by simpa only [he] using hx)

/-- What every operation keeps holds where the program ends. -/
theorem ends_inv {I : σ → Prop} (hop : ∀ {β : Type} (o : F β) s, I s → I (h o s).2) (hs : I s) :
    Ends h x s (fun _ => I) fun _ => I := by
  have := run_inv (x := x.run) hop hs
  unfold Ends exec
  rcases he : x.run.run h s with ⟨e | a, s'⟩ <;> simpa only [he] using this

end Rules

end Except

end Notely.Lib.Programs
