import Mathlib.Order.Lattice
import Mathlib.Data.List.Sort

/-! # Rankings

A list ranked by a score, the best first. Elements of equal score may come in any order, so a list can have several
rankings, and a cut after the first `n` elements may keep different ones.

* `Ranking`: what the rankings of a list are. `ranking_mergeSort`, `mergeSort_ranking`: sorting gives one of them, and
  leaves a ranking as it is.
* `NoVisibleTie`: elements of equal score have at least `n` better ones.
* `take_eq_iff`: the first `n` elements are the same in all rankings exactly if there is no visible tie. -/

namespace Notely.Lib.Rankings

variable {α β : Type*} [LinearOrder β] {score : α → β} {l R R' : List α} {n : ℕ} {a : α}

/-- The elements of the list, the best first. -/
structure Ranking (score : α → β) (l R : List α) : Prop where
  perm : R.Perm l
  sorted : R.Pairwise fun a b => score b ≤ score a

/-- Different elements of equal score have at least `n` better ones. -/
def NoVisibleTie (score : α → β) (l : List α) (n : ℕ) : Prop :=
  ∀ a ∈ l, ∀ b ∈ l, a ≠ b → score a = score b → n ≤ l.countP fun c => score a < score c

/-! ### Sorting -/

theorem sorted_mergeSort (score : α → β) (l : List α) :
    (l.mergeSort fun a b => decide (score b ≤ score a)).Pairwise fun a b => score b ≤ score a := by
  have h : (l.mergeSort fun a b => decide (score b ≤ score a)).Pairwise fun a b =>
      decide (score b ≤ score a) = true := by
    refine List.pairwise_mergeSort ?_ ?_ l
    · intro a b c hab hbc
      rw [decide_eq_true_eq] at hab hbc ⊢
      exact hbc.trans hab
    · intro a b
      rw [Bool.or_eq_true, decide_eq_true_eq, decide_eq_true_eq]
      exact le_total _ _
  exact h.imp fun hab => by simpa using hab

theorem ranking_mergeSort (score : α → β) (l : List α) :
    Ranking score l (l.mergeSort fun a b => decide (score b ≤ score a)) where
  perm := List.mergeSort_perm _ _
  sorted := sorted_mergeSort score l

/-- Sorting leaves a ranking as it is. -/
theorem mergeSort_ranking (h : Ranking score l R) : (R.mergeSort fun a b => decide (score b ≤ score a)) = R :=
  List.mergeSort_of_pairwise (h.sorted.imp fun hab => by simpa using hab)

/-! ### Ties -/

theorem NoVisibleTie.perm (h : NoVisibleTie score l n) (hl : R.Perm l) : NoVisibleTie score R n := by
  intro a ha b hb hne heq
  rw [hl.countP_eq]
  exact h a (hl.mem_iff.mp ha) b (hl.mem_iff.mp hb) hne heq

/-- Without its first element, a ranking has no tie that is visible one element earlier. -/
theorem NoVisibleTie.tail (h : NoVisibleTie score (a :: l) (n + 1)) : NoVisibleTie score l n := by
  intro x hx y hy hne heq
  have hcount := h x (List.mem_cons_of_mem a hx) y (List.mem_cons_of_mem a hy) hne heq
  rw [List.countP_cons] at hcount
  split_ifs at hcount <;> omega

/-- The first elements of two rankings are the same, if there is no tie that the first place makes visible. -/
theorem head_eq {b : α} {as bs : List α} (hperm : (a :: as).Perm (b :: bs))
    (ha : (a :: as).Pairwise fun x y => score y ≤ score x) (hb : (b :: bs).Pairwise fun x y => score y ≤ score x)
    (h : NoVisibleTie score (a :: as) (n + 1)) : a = b := by
  by_contra hne
  have hmost {c d : α} {l : List α} (hl : (c :: l).Pairwise fun x y => score y ≤ score x) (hd : d ∈ c :: l) :
      score d ≤ score c := by
    rcases List.mem_cons.mp hd with rfl | hd
    · exact le_rfl
    · exact (List.pairwise_cons.mp hl).1 d hd
  have hba : b ∈ a :: as := hperm.mem_iff.mpr List.mem_cons_self
  have hab : a ∈ b :: bs := hperm.mem_iff.mp List.mem_cons_self
  have heq : score a = score b := le_antisymm (hmost hb hab) (hmost ha hba)
  have hcount := h a List.mem_cons_self b hba hne heq
  have hzero : (a :: as).countP (fun c => decide (score a < score c)) = 0 := by
    rw [List.countP_eq_zero]
    intro c hc
    rw [decide_eq_true_eq, not_lt]
    exact hmost ha hc
  omega

theorem take_eq_of_perm (hperm : R.Perm R') (hR : R.Pairwise fun a b => score b ≤ score a)
    (hR' : R'.Pairwise fun a b => score b ≤ score a) (h : NoVisibleTie score R n) : R.take n = R'.take n := by
  induction R generalizing R' n with
  | nil => rw [List.nil_perm.mp hperm]
  | cons a as ih =>
    cases n with
    | zero => rfl
    | succ n =>
      cases R' with
      | nil => exact absurd hperm.length_eq (by simp)
      | cons b bs =>
        obtain rfl : a = b := head_eq hperm hR hR' h
        have htail := ih (hperm.cons_inv) (List.pairwise_cons.mp hR).2 (List.pairwise_cons.mp hR').2 h.tail
        rw [List.take_succ_cons, List.take_succ_cons, htail]

/-- **Any of the elements of equal score may come first among them.** -/
theorem exists_ranking_at [DecidableEq α] (hR : Ranking score l R) (ha : a ∈ l) :
    ∃ R', Ranking score l R' ∧ R'[l.countP fun c => score a < score c]? = some a := by
  have hpart : (R.filter (fun c => decide (score a < score c)) ++
      R.filter (fun c => ! decide (score a < score c))).Perm R := List.filter_append_perm _ _
  have hmem : a ∈ R.filter fun c => ! decide (score a < score c) := by
    simp [hR.perm.mem_iff.mpr ha]
  refine ⟨R.filter (fun c => decide (score a < score c)) ++
    a :: (R.filter (fun c => ! decide (score a < score c))).erase a, ⟨?_, ?_⟩, ?_⟩
  · exact ((List.perm_cons_erase hmem).symm.append_left _).trans (hpart.trans hR.perm)
  · refine List.pairwise_append.mpr ⟨hR.sorted.filter _, List.pairwise_cons.mpr ⟨?_, ?_⟩, ?_⟩
    · intro c hc
      simpa using (List.mem_filter.mp (List.mem_of_mem_erase hc)).2
    · exact (hR.sorted.filter _).sublist List.erase_sublist
    · intro c hc d hd
      have hlt : score a < score c := by simpa using (List.mem_filter.mp hc).2
      rcases List.mem_cons.mp hd with rfl | hd
      · exact hlt.le
      · have hle : score d ≤ score a := by simpa using (List.mem_filter.mp (List.mem_of_mem_erase hd)).2
        exact hle.trans hlt.le
  · rw [← hR.perm.countP_eq, List.countP_eq_length_filter, List.getElem?_append_right le_rfl, Nat.sub_self]
    rfl

/-- **The first `n` elements are the same in all rankings exactly if there is no visible tie.** -/
theorem take_eq_iff [DecidableEq α] : (∀ R R', Ranking score l R → Ranking score l R' → R.take n = R'.take n) ↔
    NoVisibleTie score l n := by
  constructor
  · intro h a ha b hb hne heq
    by_contra hlt
    obtain ⟨R, hR, hRa⟩ := exists_ranking_at (ranking_mergeSort score l) ha
    obtain ⟨R', hR', hRb⟩ := exists_ranking_at (ranking_mergeSort score l) hb
    have htake := congrArg (fun T => T[l.countP fun c => score a < score c]?) (h R R' hR hR')
    have hcount : (l.countP fun c => decide (score b < score c)) = l.countP fun c => decide (score a < score c) := by
      rw [heq]
    rw [hcount] at hRb
    simp only [List.getElem?_take_of_lt (not_le.mp hlt), hRa, hRb, Option.some.injEq] at htake
    exact hne htake
  · intro h R R' hR hR'
    exact take_eq_of_perm (hR.perm.trans hR'.perm.symm) hR.sorted hR'.sorted (h.perm hR.perm)

end Notely.Lib.Rankings
