import Mathlib.Algebra.Group.Nat.Defs
import Mathlib.Data.List.Lex

/-! # Decimals and their order

Numbers written with a fixed number of decimal digits, as the codes of the characters, and lists of codes compared
lexicographically, a list before its extensions.

* `digits_lt`: the digits of numbers are ordered as the numbers.
* `append_lt_append`: what comes first decides.
* `Cut`: digits that are written without the zeros at their end, and a smaller code after them. `Cut.lt`: their order is
  that of the digits. -/

namespace Notely.Lib.Digits

/-- The codes of the `k` digits of a number. -/
def digits : ℕ → ℕ → List ℕ
  | 0, _ => []
  | k + 1, n => (48 + n / 10 ^ k) :: digits k (n % 10 ^ k)

section Order
variable {k j m n : ℕ} {s t u v : List ℕ}

@[simp] theorem length_digits : (digits k n).length = k := by
  induction k generalizing n with
  | zero => rfl
  | succ k ih => rw [digits, List.length_cons, ih]

/-- **The order of the digits is that of the numbers.** -/
theorem digits_lt (hn : n < 10 ^ k) (h : m < n) : digits k m < digits k n := by
  induction k generalizing m n with
  | zero => omega
  | succ k ih =>
    rw [digits, digits]
    have hpos : 0 < 10 ^ k := Nat.pow_pos (by decide)
    rcases Nat.lt_or_eq_of_le (Nat.div_le_div_right (c := 10 ^ k) (Nat.le_of_lt h)) with hlt | heq
    · exact List.Lex.rel (by omega)
    · rw [heq]
      refine List.Lex.cons (ih (Nat.mod_lt _ hpos) ?_)
      have hm := Nat.div_add_mod m (10 ^ k)
      have hn' := Nat.div_add_mod n (10 ^ k)
      rw [heq] at hm
      omega

theorem digits_zero : digits k 0 = List.replicate k 48 := by
  induction k with
  | zero => rfl
  | succ k ih => rw [digits, Nat.zero_div, Nat.zero_mod, ih, List.replicate_succ]

/-- The first of more digits. -/
theorem take_digits : (digits (j + k) n).take j = digits j (n / 10 ^ k) := by
  induction j generalizing n with
  | zero => rw [List.take_zero, digits]
  | succ j ih =>
    have hdiv : n / 10 ^ (j + k) = n / 10 ^ k / 10 ^ j := by
      rw [Nat.div_div_eq_div_mul, ← pow_add, Nat.add_comm]
    have hmod : n % 10 ^ (j + k) / 10 ^ k = n / 10 ^ k % 10 ^ j := by
      rw [pow_add, Nat.mul_comm, Nat.mod_mul_right_div_self]
    rw [show j + 1 + k = j + k + 1 by omega, digits, List.take_succ_cons, ih, digits, hdiv, hmod]

/-- The last of more digits. -/
theorem drop_digits (h : n < 10 ^ (j + k)) : (digits (j + k) n).drop j = digits k (n % 10 ^ k) := by
  induction j generalizing n with
  | zero =>
    rw [Nat.zero_add] at h ⊢
    rw [List.drop_zero, Nat.mod_eq_of_lt h]
  | succ j ih =>
    have hmod : n % 10 ^ (j + k) % 10 ^ k = n % 10 ^ k :=
      Nat.mod_mod_of_dvd n (Nat.pow_dvd_pow 10 (Nat.le_add_left k j))
    rw [show j + 1 + k = j + k + 1 by omega, digits, List.drop_succ_cons, ih (Nat.mod_lt _ (Nat.pow_pos (by decide))),
      hmod]

theorem le_of_mem_digits : ∀ c ∈ digits k n, 48 ≤ c := by
  induction k generalizing n with
  | zero => simp [digits]
  | succ k ih =>
    intro c hc
    rw [digits, List.mem_cons] at hc
    rcases hc with rfl | hc
    · exact Nat.le_add_right _ _
    · exact ih c hc

/-- What comes first decides. -/
theorem append_lt_append (hlen : s.length = t.length) (h : s < t) : s ++ u < t ++ v := by
  induction h with
  | nil => simp at hlen
  | cons h ih => exact List.Lex.cons (ih (by simpa using hlen))
  | rel h => exact List.Lex.rel h

theorem append_lt_append_left (h : u < v) : s ++ u < s ++ v := by
  induction s with
  | nil => exact h
  | cons a s ih => exact List.Lex.cons ih

end Order

/-! ### Digits without the zeros at their end -/

/-- The digits up to a place after which there are only zeros, and a code below the digits there. -/
def Cut (ds s : List ℕ) : Prop :=
  ∃ k c rest, s = ds.take k ++ c :: rest ∧ c < 48 ∧ ∀ d ∈ ds.drop k, d = 48

section Cut
variable {ds es s t : List ℕ}

/-- No digits are below zeros. -/
theorem not_lt_zeros (hds : ∀ d ∈ ds, 48 ≤ d) (hes : ∀ e ∈ es, e = 48) (hlen : ds.length = es.length) : ¬ ds < es := by
  intro h
  induction h with
  | nil => simp at hlen
  | @cons a ds es _ ih =>
    exact ih (fun d hd => hds d (List.mem_cons_of_mem _ hd)) (fun e he => hes e (List.mem_cons_of_mem _ he))
      (by simpa using hlen)
  | @rel a ds b es h =>
    have ha := hds a List.mem_cons_self
    have hb := hes b List.mem_cons_self
    omega

/-- **Cut digits are ordered as the digits.** -/
theorem Cut.lt (hs : Cut ds s) (ht : Cut es t) (hds : ∀ d ∈ ds, 48 ≤ d) (hes : ∀ e ∈ es, 48 ≤ e)
    (hlen : ds.length = es.length) (h : ds < es) : s < t := by
  obtain ⟨j, b, u, rfl, hb, hj⟩ := hs
  obtain ⟨k, c, v, rfl, hc, hk⟩ := ht
  induction j generalizing ds es k with
  | zero =>
    -- the smaller digits end here, and the greater ones go on
    cases k with
    | zero => exact absurd h (not_lt_zeros hds hk hlen)
    | succ k =>
      cases es with
      | nil => exact absurd h (by simp)
      | cons e es => exact List.Lex.rel (by have he := hes e List.mem_cons_self; omega)
  | succ j ih =>
    cases h with
    | nil => simp at hlen
    | @rel d ds e es h =>
      cases k with
      | zero =>
        have hd := hds d List.mem_cons_self
        have he := hk e List.mem_cons_self
        omega
      | succ k => exact List.Lex.rel h
    | @cons d ds es h =>
      cases k with
      | zero =>
        have hlt : d :: ds < d :: es := List.Lex.cons h
        exact absurd hlt (not_lt_zeros hds hk hlen)
      | succ k =>
        refine List.Lex.cons (ih (fun x hx => hds x (List.mem_cons_of_mem _ hx))
          (fun x hx => hes x (List.mem_cons_of_mem _ hx)) (by simpa using hlen) h hj k hk)

/-- Digits whose number is a multiple of a power of ten are cut there. -/
theorem cut_digits {j k n c : ℕ} {rest : List ℕ} (hn : n < 10 ^ (j + k)) (h : n % 10 ^ k = 0) (hc : c < 48) :
    Cut (digits (j + k) n) (digits j (n / 10 ^ k) ++ c :: rest) := by
  refine ⟨j, c, rest, by rw [take_digits], hc, fun d hd => ?_⟩
  rw [drop_digits hn, h, digits_zero] at hd
  exact List.eq_of_mem_replicate hd

end Cut

end Notely.Lib.Digits
