import Mathlib.Algebra.Order.BigOperators.Group.List
import Mathlib.Algebra.Order.Ring.Nat
import Mathlib.Data.List.Chain

/-! # Greedy grouping

A list is cut, from left to right, into groups of neighbours: the next element joins the group as long as
the sizes stay within a budget, and opens a new one otherwise; a group that is still empty takes any
element.

* `Grouped`: what the groups of a list are, without the scan.
* `groups`: the scan. `groups_grouped`: it makes them.
* `ranges`, `slice_eq`: where the groups are in the list.
* `filter_between`: a block of a list in increasing order is what lies between its first and its last
  element. -/

namespace Notely.Lib.Greedy

variable {α : Type*}

/-! ### Groups -/

/-- The sizes of a group, added up. -/
def total (size : α → ℕ) (g : List α) : ℕ := (g.map size).sum

@[simp] theorem total_nil (size : α → ℕ) : total size [] = 0 := rfl

@[simp] theorem total_append (size : α → ℕ) (g g' : List α) :
    total size (g ++ g') = total size g + total size g' := by
  simp [total]

@[simp] theorem total_singleton (size : α → ℕ) (a : α) : total size [a] = size a := by
  simp [total]

/-- **The groups of a list**: nonempty blocks in its order, those of several elements within the budget,
and none with room for the element after it. -/
structure Grouped (size : α → ℕ) (budget : ℕ) (l : List α) (gs : List (List α)) : Prop where
  flatten : gs.flatten = l
  nonempty : [] ∉ gs
  within : ∀ g ∈ gs, 2 ≤ g.length → total size g ≤ budget
  maximal : gs.IsChain fun g g' => ∀ a ∈ g'.head?, budget < total size g + size a

/-- The scan of a list, with the group gathered. -/
def groups (size : α → ℕ) (budget : ℕ) (cur : List α) : List α → List (List α)
  | [] => if cur = [] then [] else [cur]
  | a :: as =>
    if cur ≠ [] ∧ budget < total size cur + size a then cur :: groups size budget [a] as
    else groups size budget (cur ++ [a]) as

section Scan
variable (size : α → ℕ) (budget : ℕ)

/-- The first group starts with what is gathered. -/
theorem head?_groups (l cur : List α) (h : cur ≠ []) :
    ∃ g gs, groups size budget cur l = g :: gs ∧ g.head? = cur.head? := by
  induction l generalizing cur with
  | nil => exact ⟨cur, [], by simp [groups, h], rfl⟩
  | cons a as ih =>
    rw [groups]
    split_ifs with hb
    · exact ⟨cur, _, rfl, rfl⟩
    · obtain ⟨g, gs, hg, hhead⟩ := ih (cur ++ [a]) (by simp)
      refine ⟨g, gs, hg, ?_⟩
      rw [hhead, List.head?_append_of_ne_nil _ h]

/-- The scan keeps what the groups of a list are, if what is gathered may be a group. -/
theorem groups_grouped_from (l cur : List α) (hcur : 2 ≤ cur.length → total size cur ≤ budget) :
    Grouped size budget (cur ++ l) (groups size budget cur l) := by
  induction l generalizing cur with
  | nil =>
    rw [groups, List.append_nil]
    split_ifs with h
    · subst h
      exact ⟨rfl, by simp, by simp, .nil⟩
    · refine ⟨by simp, by simpa using Ne.symm h, ?_, .singleton _⟩
      intro g hg hlen
      rw [List.mem_singleton.mp hg] at hlen ⊢
      exact hcur hlen
  | cons a as ih =>
    rw [groups]
    split_ifs with h
    · have hrest := ih [a] (by simp)
      refine ⟨by rw [List.flatten_cons, hrest.flatten, List.singleton_append], ?_, ?_, ?_⟩
      · rw [List.mem_cons, not_or]
        exact ⟨Ne.symm h.1, hrest.nonempty⟩
      · intro g hg
        rcases List.mem_cons.mp hg with rfl | hg
        · exact hcur
        · exact hrest.within g hg
      · obtain ⟨g, gs, hgs, hhead⟩ := head?_groups size budget as [a] (by simp)
        have hchain := hrest.maximal
        rw [hgs] at hchain ⊢
        refine List.isChain_cons_cons.mpr ⟨?_, hchain⟩
        intro b hb
        rw [hhead, List.head?_cons, Option.mem_some_iff] at hb
        rw [← hb]
        exact h.2
    · have hjoin : 2 ≤ (cur ++ [a]).length → total size (cur ++ [a]) ≤ budget := by
        intro hlen
        rw [List.length_append, List.length_singleton] at hlen
        have hne : cur ≠ [] := fun hnil => by simp [hnil] at hlen
        have hroom := not_lt.mp fun hb => h ⟨hne, hb⟩
        rwa [total_append, total_singleton]
      have hrest := ih (cur ++ [a]) hjoin
      rwa [List.append_assoc, List.singleton_append] at hrest

/-- **The scan makes the groups of the list.** -/
theorem groups_grouped (l : List α) : Grouped size budget l (groups size budget [] l) :=
  groups_grouped_from size budget l [] (by simp)

variable {size budget} {l : List α}

/-- A group has no room for the first element of the next. -/
theorem Grouped.next {gs : List (List α)} (h : Grouped size budget l gs) {i : ℕ} {g g' : List α} {a : α}
    (hg : gs[i]? = some g) (hg' : gs[i + 1]? = some g') (ha : g'.head? = some a) :
    budget < total size g + size a := by
  obtain ⟨hi, rfl⟩ := List.getElem?_eq_some_iff.mp hg
  obtain ⟨hi', rfl⟩ := List.getElem?_eq_some_iff.mp hg'
  exact List.isChain_iff_getElem.mp h.maximal i hi' a ha

end Scan

/-! ### Ranges -/

/-- The ranges of the groups of a list, the first of which starts at `start`. -/
def ranges (start : ℕ) : List (List α) → List (ℕ × ℕ)
  | [] => []
  | g :: gs => (start, start + g.length) :: ranges (start + g.length) gs

section Ranges
variable {gs : List (List α)} {g : List α} {i : ℕ}

/-- Where the group `i` starts. -/
def startOf (gs : List (List α)) (i : ℕ) : ℕ := (gs.take i).flatten.length

@[simp] theorem startOf_zero (gs : List (List α)) : startOf gs 0 = 0 := by simp [startOf]

/-- A group starts where the one before it ends. -/
theorem startOf_succ (h : gs[i]? = some g) : startOf gs (i + 1) = startOf gs i + g.length := by
  rw [startOf, startOf, List.take_add_one, h]
  simp

theorem startOf_length (gs : List (List α)) : startOf gs gs.length = gs.flatten.length := by
  rw [startOf, List.take_length]

theorem getElem?_ranges (start : ℕ) (gs : List (List α)) (i : ℕ) :
    (ranges start gs)[i]? = gs[i]?.map fun g => (start + startOf gs i, start + startOf gs i + g.length) := by
  induction gs generalizing start i with
  | nil => simp [ranges]
  | cons g gs ih =>
    cases i with
    | zero => simp [ranges]
    | succ i => simp [ranges, ih, startOf, Nat.add_assoc]

/-- **A group is the slice of the list at its range.** -/
theorem slice_eq (h : gs[i]? = some g) :
    (gs.flatten.take (startOf gs i + g.length)).drop (startOf gs i) = g := by
  obtain ⟨hi, rfl⟩ := List.getElem?_eq_some_iff.mp h
  have hsplit : gs.flatten = (gs.take i).flatten ++ (gs[i] ++ (gs.drop (i + 1)).flatten) := by
    rw [← List.flatten_cons, ← List.drop_eq_getElem_cons hi, ← List.flatten_append, List.take_append_drop]
  rw [hsplit, startOf, List.take_length_add_append, List.take_left, List.drop_left]

/-- The element after a group is the first of the next. -/
theorem getElem?_after {a : α} (h : gs[i]? = some g) (hne : [] ∉ gs)
    (ha : gs.flatten[startOf gs i + g.length]? = some a) : ∃ g', gs[i + 1]? = some g' ∧ g'.head? = some a := by
  rw [← startOf_succ h] at ha
  have hlt : i + 1 < gs.length := by
    by_contra hge
    rw [startOf, List.take_of_length_le (by omega), List.getElem?_eq_none le_rfl] at ha
    exact absurd ha (by simp)
  have hsplit : gs.flatten = (gs.take (i + 1)).flatten ++ (gs[i + 1] ++ (gs.drop (i + 2)).flatten) := by
    rw [← List.flatten_cons, ← List.drop_eq_getElem_cons hlt, ← List.flatten_append, List.take_append_drop]
  refine ⟨gs[i + 1], List.getElem?_eq_getElem hlt, ?_⟩
  have hg : gs[i + 1] ≠ [] := fun h => hne (h ▸ List.getElem_mem hlt)
  rw [hsplit, startOf, List.getElem?_append_right le_rfl, Nat.sub_self,
    List.getElem?_append_left (List.length_pos_iff.mpr hg)] at ha
  rw [List.head?_eq_getElem?, ha]

end Ranges

/-! ### Blocks of a list in increasing order -/

section Blocks
variable {key : α → ℕ} {A G B : List α} {x : α}

/-- An element is between the first and the last of an increasing block that has it. -/
theorem between_of_mem (h : G.Pairwise fun a b => key a < key b) (hx : x ∈ G) :
    (∀ a ∈ G.head?, key a ≤ key x) ∧ ∀ b ∈ G.getLast?, key x ≤ key b := by
  constructor
  · intro a ha
    obtain ⟨G', rfl⟩ : ∃ G', G = a :: G' := by
      cases G with
      | nil => simp at ha
      | cons a' G' =>
        rw [List.head?_cons, Option.mem_some_iff] at ha
        exact ⟨G', by rw [ha]⟩
    rcases List.mem_cons.mp hx with rfl | hx
    · exact le_rfl
    · exact ((List.pairwise_cons.mp h).1 x hx).le
  · intro b hb
    obtain ⟨G', rfl⟩ : ∃ G', G = G' ++ [b] := by
      obtain ⟨G', hG⟩ := List.getLast?_eq_some_iff.mp hb
      exact ⟨G', hG⟩
    rcases List.mem_append.mp hx with hx | hx
    · exact ((List.pairwise_append.mp h).2.2 x hx b (by simp)).le
    · rw [List.mem_singleton.mp hx]

/-- **A block of a list in increasing order is what lies between its ends.** -/
theorem filter_between (h : (A ++ G ++ B).Pairwise fun a b => key a < key b) {first last : α}
    (hf : G.head? = some first) (hl : G.getLast? = some last) :
    (A ++ G ++ B).filter (fun a => key first ≤ key a ∧ key a ≤ key last) = G := by
  obtain ⟨hAG, -, hGB⟩ := List.pairwise_append.mp h
  obtain ⟨-, hG, hAG⟩ := List.pairwise_append.mp hAG
  have hfirst : first ∈ G := List.mem_of_mem_head? (by rw [hf]; rfl)
  have hlast : last ∈ G := List.mem_of_getLast? hl
  have hA : A.filter (fun a => key first ≤ key a ∧ key a ≤ key last) = [] := by
    refine List.filter_eq_nil_iff.mpr fun a ha => ?_
    have := hAG a ha first hfirst
    simp only [decide_eq_true_eq]
    omega
  have hB : B.filter (fun a => key first ≤ key a ∧ key a ≤ key last) = [] := by
    refine List.filter_eq_nil_iff.mpr fun a ha => ?_
    have := hGB last (List.mem_append_right A hlast) a ha
    simp only [decide_eq_true_eq]
    omega
  have hG' : G.filter (fun a => key first ≤ key a ∧ key a ≤ key last) = G := by
    refine List.filter_eq_self.mpr fun a ha => ?_
    have hbetween := between_of_mem hG ha
    rw [decide_eq_true_eq]
    exact ⟨hbetween.1 first hf, hbetween.2 last hl⟩
  rw [List.filter_append, List.filter_append, hA, hG', hB, List.nil_append, List.append_nil]

/-- Blocks of a list in increasing order that share an element are one. -/
theorem eq_of_shared {blocks : List (List α)} (h : blocks.flatten.Pairwise fun a b => key a < key b)
    {G G' : List α} (hG : G ∈ blocks) (hG' : G' ∈ blocks) (hx : x ∈ G) (hx' : x ∈ G') : G = G' := by
  have happart : blocks.Pairwise fun G G' => ¬ (x ∈ G ∧ x ∈ G') :=
    (List.pairwise_flatten.mp h).2.imp fun {G G'} hlt (hboth : x ∈ G ∧ x ∈ G') =>
      lt_irrefl _ (hlt x hboth.1 x hboth.2)
  have : Std.Symm fun G G' : List α => ¬ (x ∈ G ∧ x ∈ G') := ⟨fun _ _ h hboth => h hboth.symm⟩
  by_contra hne
  exact happart.forall hG hG' hne ⟨hx, hx'⟩

end Blocks

end Notely.Lib.Greedy
