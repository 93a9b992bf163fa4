import Notely.Lib.JsonText

/-! # Pairs of code units in JSON texts

A string may have half of a pair without the other, and no text of an encoding of Unicode may. A JSON text that is
written has none: such a half is written as an escape.

* `paired_content`: a string as it is written, between what comes before and after it.
* `paired_encode`: a value has no half of a pair alone in its text. -/

namespace Notely.Lib.JsonPairs

open Notely.Lib.JsonText

/-- No half of a pair is alone in a text that follows `prev`. -/
def paired (prev : Option ℕ) : Units → Bool
  | [] => true
  | u :: s => ! lone prev u s.head? && paired (some u) s

/-- What is no half of a pair. -/
def Plain (u : ℕ) : Prop := u < 0xD800

instance (u : ℕ) : Decidable (Plain u) := inferInstanceAs (Decidable (_ < _))

section Pairs
variable {double : ℚ → Units} {p prev : Option ℕ} {u : ℕ} {t rest : Units}

theorem high_of_plain (h : Plain u) : high u = false := by
  unfold Plain at h
  rw [high, Bool.and_eq_false_iff, decide_eq_false_iff_not]
  exact Or.inl (by omega)

theorem low_of_plain (h : Plain u) : low u = false := by
  unfold Plain at h
  rw [low, Bool.and_eq_false_iff, decide_eq_false_iff_not]
  exact Or.inl (by omega)

/-- Only whether the first half of a pair comes before counts. -/
theorem paired_congr (h : p.any high = prev.any high) (s : Units) : paired p s = paired prev s := by
  cases s with
  | nil => rfl
  | cons u s => rw [paired, paired, lone, lone, h]

theorem paired_cons_plain (h : Plain u) (p : Option ℕ) (s : Units) : paired p (u :: s) = paired none s := by
  have hnone : paired (some u) s = paired none s := paired_congr (by rw [Option.any_some, high_of_plain h]; rfl) s
  rw [paired, lone, high_of_plain h, low_of_plain h, hnone]
  rfl

theorem paired_plain_append (ht : ∀ u ∈ t, Plain u) (hne : t ≠ []) (p : Option ℕ) (s : Units) :
    paired p (t ++ s) = paired none s := by
  induction t generalizing p with
  | nil => exact absurd rfl hne
  | cons u t ih =>
    rw [List.cons_append, paired_cons_plain (ht u List.mem_cons_self)]
    cases t with
    | nil => rfl
    | cons v t => exact ih (fun w hw => ht w (List.mem_cons_of_mem u hw)) (List.cons_ne_nil v t) none

/-- A unit is written as itself, or with units that are no halves of pairs. -/
theorem escape_cases (prev : Option ℕ) (u : ℕ) (next : Option ℕ) :
    (escape prev u next = [u] ∧ lone prev u next = false) ∨
      (∀ w ∈ escape prev u next, Plain w) ∧ escape prev u next ≠ [] ∧ (lone prev u next = true ∨ Plain u) := by
  have hhex : ∀ x, hexDigit (x % 16) < 0xD800 := by
    intro x
    have hlt : x % 16 < 16 := Nat.mod_lt x (by decide)
    unfold hexDigit
    split_ifs <;> omega
  unfold escape
  split_ifs with h92 hlone h32 h8 h9 h10 h12 h13 hquote
  · exact Or.inr ⟨by simp [Plain, hhex], List.cons_ne_nil _ _, Or.inl hlone⟩
  · exact Or.inl ⟨rfl, by simpa using hlone⟩
  · exact Or.inr ⟨by simp [Plain], List.cons_ne_nil _ _, Or.inr (by unfold Plain; omega)⟩
  · exact Or.inr ⟨by simp [Plain], List.cons_ne_nil _ _, Or.inr (by unfold Plain; omega)⟩
  · exact Or.inr ⟨by simp [Plain], List.cons_ne_nil _ _, Or.inr (by unfold Plain; omega)⟩
  · exact Or.inr ⟨by simp [Plain], List.cons_ne_nil _ _, Or.inr (by unfold Plain; omega)⟩
  · exact Or.inr ⟨by simp [Plain], List.cons_ne_nil _ _, Or.inr (by unfold Plain; omega)⟩
  · exact Or.inr ⟨by simp [Plain, hhex], List.cons_ne_nil _ _, Or.inr (by unfold Plain; omega)⟩
  · have hu : Plain u := by unfold Plain; omega
    exact Or.inr ⟨by simp [Plain] at hu ⊢; omega, List.cons_ne_nil _ _, Or.inr hu⟩
  · have hu : Plain u := by unfold Plain; omega
    exact Or.inr ⟨by simpa using hu, List.cons_ne_nil _ _, Or.inr hu⟩

theorem lone_eq_false_iff {next : Option ℕ} : lone prev u next = false ↔
    (high u = true → next.any low = true) ∧ (low u = true → prev.any high = true) := by
  cases hu : high u <;> cases hl : low u <;> simp [lone, hu, hl]

theorem low_of_high (h : high u = true) : low u = false := by
  simp only [high, Bool.and_eq_true, decide_eq_true_eq] at h
  rw [low, Bool.and_eq_false_iff, decide_eq_false_iff_not]
  exact Or.inl (by omega)

/-- The second half of a pair is written as itself after the first. -/
theorem head?_content_of_low {s : Units} (hu : high u = true) (hs : s.head?.any low = true) :
    (content (some u) s).head? = s.head? := by
  cases s with
  | nil => rfl
  | cons v s =>
    have hv : low v = true := by simpa using hs
    have hlone : lone (some u) v s.head? = false := by
      refine lone_eq_false_iff.mpr ⟨fun hhigh => ?_, fun _ => by simpa using hu⟩
      rw [low_of_high hhigh] at hv
      cases hv
    simp only [low, Bool.and_eq_true, decide_eq_true_eq] at hv
    rw [content, escape, if_pos (by omega), hlone]
    rfl

/-- **No half of a pair is alone in a string as it is written**, where what was written before goes with what was read
before. -/
theorem paired_content (s : Units) (hp : prev.any high = true → s.head?.any low = true → p.any high = true)
    (rest : Units) : paired p (content prev s ++ 34 :: rest) = paired none rest := by
  induction s generalizing prev p with
  | nil => exact paired_cons_plain (by decide) p rest
  | cons u s ih =>
    rw [content, List.append_assoc]
    rcases escape_cases prev u s.head? with ⟨hself, hlone⟩ | ⟨hplain, hne, hu⟩
    · -- what comes before and after the unit as it is written are its neighbours in the string
      rw [lone_eq_false_iff] at hlone
      have hnext : high u = true → (content (some u) s ++ 34 :: rest).head?.any low = true := by
        intro hhigh
        have hlow := hlone.1 hhigh
        rw [List.head?_append, head?_content_of_low hhigh hlow]
        cases hs : s.head? with
        | none => simp [hs] at hlow
        | some v => simpa [hs] using hlow
      have hkept : lone p u (content (some u) s ++ 34 :: rest).head? = false :=
        lone_eq_false_iff.mpr ⟨hnext, fun hlow => hp (hlone.2 hlow) (by simpa using hlow)⟩
      rw [hself, List.singleton_append, paired, hkept, ih fun hhigh _ => hhigh]
      rfl
    · rw [paired_plain_append hplain hne]
      refine ih fun hhigh hlow => ?_
      have hhigh' : high u = true := by simpa using hhigh
      rcases hu with hlone | hu
      · have hnot : lone prev u s.head? = false :=
          lone_eq_false_iff.mpr ⟨fun _ => hlow, fun h => by rw [low_of_high hhigh'] at h; cases h⟩
        rw [hnot] at hlone
        cases hlone
      · rw [high_of_plain hu] at hhigh'
        cases hhigh'

theorem paired_quote (s : Units) (p : Option ℕ) (rest : Units) : paired p (quote s ++ rest) = paired none rest := by
  rw [quote, List.cons_append, List.append_assoc, paired_cons_plain (by decide), List.singleton_append]
  exact paired_content s (fun h => by cases h) rest

theorem plain_natUnits {n : ℕ} : ∀ u ∈ natUnits n, Plain u := by
  intro u hu
  have hdigit := isDigit_of_mem_natUnits hu
  rw [isDigit, Bool.and_eq_true, decide_eq_true_eq, decide_eq_true_eq] at hdigit
  unfold Plain
  omega

theorem paired_intUnits (n : ℤ) (p : Option ℕ) (rest : Units) : paired p (intUnits n ++ rest) = paired none rest := by
  have hplain : ∀ u ∈ intUnits n, Plain u := by
    rw [intUnits]
    split_ifs
    · exact List.forall_mem_cons.mpr ⟨by decide, plain_natUnits⟩
    · exact plain_natUnits
  obtain ⟨u, s, hu, -⟩ := head_intUnits n
  exact paired_plain_append hplain (by rw [hu]; exact List.cons_ne_nil u s) p rest

theorem paired_ascii {s : String} (hplain : ∀ u ∈ ascii s, Plain u) (hne : ascii s ≠ []) (p : Option ℕ)
    (rest : Units) : paired p (ascii s ++ rest) = paired none rest := paired_plain_append hplain hne p rest

mutual

/-- No half of a pair is alone in a value as it is written, whatever comes before. -/
theorem paired_encode_append : ∀ (v : Json) (p : Option ℕ) (rest : Units), whole v = true →
    paired p (encode double v ++ rest) = paired none rest
  | .null, p, rest, _ => paired_ascii (s := "null") (by decide) (by decide) p rest
  | .bool true, p, rest, _ => paired_ascii (s := "true") (by decide) (by decide) p rest
  | .bool false, p, rest, _ => paired_ascii (s := "false") (by decide) (by decide) p rest
  | .int n, p, rest, _ => paired_intUnits n p rest
  | .str s, p, rest, _ => paired_quote s p rest
  | .arr [], p, rest, _ => paired_ascii (s := "[]") (by decide) (by decide) p rest
  | .arr (v :: vs), p, rest, hv => by
    rw [whole, wholeItems, Bool.and_eq_true] at hv
    rw [encode, List.cons_append, List.append_assoc, paired_cons_plain (by decide), paired_encode_append v _ _ hv.1,
      paired_encodeItems vs _ _ hv.2]
  | .obj [], p, rest, _ => paired_ascii (s := "\x7b\x7d") (by decide) (by decide) p rest
  | .obj ((k, v) :: ms), p, rest, hv => by
    rw [whole, wholeMembers, Bool.and_eq_true] at hv
    rw [encode, List.cons_append, List.append_assoc, List.cons_append, List.append_assoc,
      paired_cons_plain (by decide), paired_quote, paired_cons_plain (by decide), paired_encode_append v _ _ hv.1,
      paired_encodeMembers ms _ _ hv.2]

theorem paired_encodeItems : ∀ (vs : List Json) (p : Option ℕ) (rest : Units), wholeItems vs = true →
    paired p (encodeItems double vs ++ rest) = paired none rest
  | [], p, rest, _ => paired_cons_plain (by decide) p rest
  | v :: vs, p, rest, hv => by
    rw [wholeItems, Bool.and_eq_true] at hv
    rw [encodeItems, List.cons_append, List.append_assoc, paired_cons_plain (by decide),
      paired_encode_append v _ _ hv.1, paired_encodeItems vs _ _ hv.2]

theorem paired_encodeMembers : ∀ (ms : List (Units × Json)) (p : Option ℕ) (rest : Units), wholeMembers ms = true →
    paired p (encodeMembers double ms ++ rest) = paired none rest
  | [], p, rest, _ => paired_cons_plain (by decide) p rest
  | (k, v) :: ms, p, rest, hv => by
    rw [wholeMembers, Bool.and_eq_true] at hv
    rw [encodeMembers, List.cons_append, List.append_assoc, List.cons_append, List.append_assoc,
      paired_cons_plain (by decide), paired_quote, paired_cons_plain (by decide), paired_encode_append v _ _ hv.1,
      paired_encodeMembers ms _ _ hv.2]

end

/-- **No half of a pair is alone in what is written**, so that the text can be kept in any encoding of Unicode. -/
theorem paired_encode {v : Json} (hv : whole v = true) : paired none (encode double v) = true := by
  have h : paired none (encode double v ++ []) = paired none [] := paired_encode_append v none [] hv
  rwa [List.append_nil] at h

end Pairs
end Notely.Lib.JsonPairs
