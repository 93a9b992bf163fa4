import Mathlib.Data.List.Nodup

/-! # Tables with a key

A table is a list of rows, each with its key; `get` finds the row of a key, and `upsert` changes it, or
adds one, so that a table written with it has one row for a key. `fill` does so for each element of a list. -/

namespace Notely.Lib.Table

variable {κ α : Type*} [DecidableEq κ]

/-- The row of a key. -/
def get (k : κ) : List (κ × α) → Option α
  | [] => none
  | (k', a) :: t => if k' = k then some a else get k t

/-- The row of a key changed, or added. -/
def upsert (f : Option α → α) (k : κ) : List (κ × α) → List (κ × α)
  | [] => [(k, f none)]
  | (k', a) :: t => if k' = k then (k', f (some a)) :: t else (k', a) :: upsert f k t

/-- The row of a key replaced, or added. -/
def put (k : κ) (a : α) : List (κ × α) → List (κ × α) := upsert (fun _ => a) k

/-- The rows of a key taken out. -/
def erase (k : κ) (t : List (κ × α)) : List (κ × α) := t.filter fun row => ! decide (row.1 = k)

section Laws
variable {f : Option α → α} {k k' : κ} {t : List (κ × α)}

@[simp] theorem get_nil : get k ([] : List (κ × α)) = none := rfl

@[simp] theorem get_upsert_self : get k (upsert f k t) = some (f (get k t)) := by
  induction t with
  | nil => simp [upsert, get]
  | cons row t ih =>
    obtain ⟨k1, a⟩ := row
    by_cases h : k1 = k <;> simp [upsert, get, h, ih]

@[simp] theorem get_upsert_of_ne (h : k' ≠ k) : get k' (upsert f k t) = get k' t := by
  induction t with
  | nil => simp [upsert, get, h.symm]
  | cons row t ih =>
    obtain ⟨k1, a⟩ := row
    by_cases h1 : k1 = k
    · subst h1
      simp [upsert, get, h.symm]
    · by_cases h2 : k1 = k' <;> simp [upsert, get, h1, h2, ih, h]

@[simp] theorem get_put_self {a : α} : get k (put k a t) = some a := get_upsert_self

@[simp] theorem get_put_of_ne {a : α} (h : k' ≠ k) : get k' (put k a t) = get k' t := get_upsert_of_ne h

theorem isSome_get_put {a : α} (h : (get k' t).isSome) : (get k' (put k a t)).isSome := by
  by_cases hk : k' = k
  · simp [hk]
  · rwa [get_put_of_ne hk]

/-- Rows are found among the first ones, then among the others. -/
@[simp] theorem get_append {s : List (κ × α)} : get k (s ++ t) = (get k s).or (get k t) := by
  induction s with
  | nil => rfl
  | cons row s ih =>
    obtain ⟨k1, a⟩ := row
    by_cases h : k1 = k <;> simp [get, h, ih]

theorem mem_put_self {a : α} : (k, a) ∈ put k a t := by
  induction t with
  | nil => simp [put, upsert]
  | cons row t ih =>
    obtain ⟨k1, b⟩ := row
    unfold put at ih ⊢
    by_cases h : k1 = k <;> simp [upsert, h, ih]

theorem mem_of_mem_put {a : α} {row : κ × α} (h : row ∈ put k a t) : row = (k, a) ∨ row ∈ t := by
  induction t with
  | nil => exact Or.inl (List.mem_singleton.mp h)
  | cons row1 t ih =>
    obtain ⟨k1, b⟩ := row1
    unfold put at ih h
    by_cases hk : k1 = k
    · simp only [upsert, hk, if_true, List.mem_cons] at h
      exact h.imp id (List.mem_cons_of_mem _)
    · simp only [upsert, hk, if_false, List.mem_cons] at h
      rcases h with rfl | h
      · exact Or.inr (by simp)
      · exact (ih h).imp id (List.mem_cons_of_mem _)

/-- A row that is found is one of the table. -/
theorem mem_of_get {a : α} (h : get k t = some a) : (k, a) ∈ t := by
  induction t with
  | nil => cases h
  | cons row t ih =>
    obtain ⟨k1, b⟩ := row
    by_cases hk : k1 = k
    · simp only [get, hk, if_true, Option.some.injEq] at h
      simp [hk, h]
    · simp only [get, hk, if_false] at h
      exact List.mem_cons_of_mem _ (ih h)

/-- A key has a row exactly if it is among the keys. -/
theorem isSome_get : (get k t).isSome ↔ k ∈ t.map Prod.fst := by
  induction t with
  | nil => simp
  | cons row t ih =>
    obtain ⟨k1, a⟩ := row
    rw [List.map_cons, List.mem_cons, ← ih]
    by_cases h : k1 = k
    · simp [get, h]
    · simp [get, h, Ne.symm h]

theorem mem_keys_upsert : k' ∈ (upsert f k t).map Prod.fst ↔ k' = k ∨ k' ∈ t.map Prod.fst := by
  induction t with
  | nil => simp [upsert]
  | cons row t ih =>
    obtain ⟨k1, a⟩ := row
    by_cases h : k1 = k
    · subst h
      simp [upsert]
    · simp only [upsert, h, if_false, List.map_cons, List.mem_cons, ih]
      tauto

@[simp] theorem get_erase_self : get k (erase k t) = none := by
  induction t with
  | nil => rfl
  | cons row t ih =>
    obtain ⟨k1, a⟩ := row
    unfold erase at ih ⊢
    by_cases h : k1 = k <;> simp [get, h, ih]

@[simp] theorem get_erase_of_ne (h : k' ≠ k) : get k' (erase k t) = get k' t := by
  induction t with
  | nil => rfl
  | cons row t ih =>
    obtain ⟨k1, a⟩ := row
    unfold erase at ih ⊢
    by_cases h1 : k1 = k
    · subst h1
      simp [get, h.symm, ih]
    · by_cases h2 : k1 = k' <;> simp [get, h1, h2, ih, h]

/-- A table written with `upsert` has one row for a key. -/
theorem nodup_keys_upsert (h : (t.map Prod.fst).Nodup) : ((upsert f k t).map Prod.fst).Nodup := by
  induction t with
  | nil => simp [upsert]
  | cons row t ih =>
    obtain ⟨k1, a⟩ := row
    rw [List.map_cons, List.nodup_cons] at h
    by_cases hk : k1 = k
    · subst hk
      simpa only [upsert, if_true, List.map_cons, List.nodup_cons] using h
    · simp only [upsert, hk, if_false, List.map_cons, List.nodup_cons]
      refine ⟨fun hmem => ?_, ih h.2⟩
      exact (mem_keys_upsert.mp hmem).elim hk h.1

theorem nodup_keys_put {a : α} (h : (t.map Prod.fst).Nodup) : ((put k a t).map Prod.fst).Nodup :=
  nodup_keys_upsert h

/-- Among rows of different keys, the rows are those that are found. -/
theorem mem_iff_get (h : (t.map Prod.fst).Nodup) {a : α} : (k, a) ∈ t ↔ get k t = some a := by
  induction t with
  | nil => simp
  | cons row t ih =>
    obtain ⟨k1, b⟩ := row
    rw [List.map_cons, List.nodup_cons] at h
    by_cases hk : k1 = k
    · subst hk
      have hno : (k1, a) ∉ t := fun hmem => h.1 (List.mem_map.mpr ⟨_, hmem, rfl⟩)
      simp [get, hno, eq_comm]
    · simp [get, hk, Ne.symm hk, ih h.2]

/-- The rows of a table read as others: a row changed is a row replaced, if it reads as `b` whatever it was. -/
theorem map_upsert {β : Type*} {g : κ → α → β} {b : β} (h : ∀ old, g k (f old) = b) :
    (upsert f k t).map (fun row => (row.1, g row.1 row.2)) = put k b (t.map fun row => (row.1, g row.1 row.2)) := by
  induction t with
  | nil => simp [upsert, put, h]
  | cons row t ih =>
    obtain ⟨k1, a⟩ := row
    unfold put at ih ⊢
    by_cases hk : k1 = k
    · subst hk
      simp [upsert, h]
    · simp [upsert, hk, ih]

theorem length_upsert_le (f : Option α → α) (k : κ) (t : List (κ × α)) :
    (upsert f k t).length ≤ t.length + 1 := by
  induction t with
  | nil => simp [upsert]
  | cons row t ih =>
    rw [upsert]
    split_ifs
    · simp
    · simpa using ih

end Laws

/-! ### Tables filled from a list -/

/-- Each element changes the row of its key. -/
def fill {γ : Type*} (key : γ → κ) (f : γ → Option α → α) (t : List (κ × α)) (l : List γ) : List (κ × α) :=
  l.foldl (fun t x => upsert (f x) (key x) t) t

section Fill
variable {γ : Type*} {key : γ → κ} {f : γ → Option α → α} {k : κ} {t : List (κ × α)} {l : List γ}

theorem mem_keys_fill : k ∈ (fill key f t l).map Prod.fst ↔ k ∈ t.map Prod.fst ∨ k ∈ l.map key := by
  induction l generalizing t with
  | nil => simp [fill]
  | cons x l ih =>
    have hrest : k ∈ (fill key f t (x :: l)).map Prod.fst ↔ _ := ih
    rw [hrest, mem_keys_upsert, List.map_cons, List.mem_cons]
    tauto

theorem nodup_keys_fill (h : (t.map Prod.fst).Nodup) : ((fill key f t l).map Prod.fst).Nodup := by
  induction l generalizing t with
  | nil => exact h
  | cons x l ih => exact ih (nodup_keys_upsert h)

theorem length_fill_le (key : γ → κ) (f : γ → Option α → α) (t : List (κ × α)) (l : List γ) :
    (fill key f t l).length ≤ t.length + l.length := by
  induction l generalizing t with
  | nil => exact Nat.le_refl _
  | cons x l ih =>
    have hrest : (fill key f t (x :: l)).length ≤ (upsert (f x) (key x) t).length + l.length := ih _
    have hone : (upsert (f x) (key x) t).length ≤ t.length + 1 := length_upsert_le (f x) (key x) t
    rw [List.length_cons]
    omega

end Fill

/-- Among rows of different keys a row is the first of its key. -/
theorem find?_key {β : Type*} {key : β → κ} {l : List β} (hn : (l.map key).Nodup) {b : β} (hb : b ∈ l) :
    l.find? (fun x => decide (key x = key b)) = some b := by
  induction l with
  | nil => simp at hb
  | cons a l ih =>
    rw [List.map_cons, List.nodup_cons] at hn
    rcases List.mem_cons.mp hb with rfl | hb
    · simp
    · have hne : key a ≠ key b := fun h => hn.1 (h ▸ List.mem_map_of_mem hb)
      rw [List.find?_cons_of_neg (by simpa using hne)]
      exact ih hn.2 hb

end Notely.Lib.Table
