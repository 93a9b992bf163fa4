import Notely.Lib.Paths
import Mathlib.Data.List.Nodup

/-! # Directory trees

A tree tells, for a path, the entry there: the name it is shown under and its node, a file with its
content or a directory. Every entry but the root lies in a directory (`parent`), and there are finitely
many (`support`).

* `put`: an entry is made, or one that is no directory is written over.
* `remove`: an entry and all below it are gone.
* `relocate`: an entry and all below it are found at another path, whatever was there being gone.
* `exists_free`: among candidates with different paths one is free, so a search through them ends. -/

namespace Notely.Lib.FileTree

open Notely.Lib.Strings Notely.Lib.Paths

inductive Node (α : Type*)
  | file (content : α)
  | dir
  deriving DecidableEq, Repr

def Node.isFile {α : Type*} : Node α → Bool
  | .file _ => true
  | .dir => false

structure Entry (α : Type*) where
  name : Text
  node : Node α
  deriving DecidableEq, Repr

variable {α : Type*}

/-- The root, or the path of a directory. -/
def IsDir (entry : Path → Option (Entry α)) (p : Path) : Prop :=
  p = [] ∨ (entry p).map Entry.node = some .dir

/-- A directory tree. -/
structure DirTree (α : Type*) where
  entry : Path → Option (Entry α)
  support : List Path
  mem_support : ∀ p, (entry p).isSome → p ∈ support
  root : entry [] = none
  parent : ∀ p c, (entry (p ++ [c])).isSome → IsDir entry p

namespace DirTree

/-- What lies at a path. -/
def node (t : DirTree α) (p : Path) : Option (Node α) := (t.entry p).map Entry.node

/-- The root counts as an entry. -/
def Exists (t : DirTree α) (p : Path) : Prop := p = [] ∨ (t.node p).isSome

instance (t : DirTree α) (p : Path) : Decidable (t.Exists p) := inferInstanceAs (Decidable (_ ∨ _))

/-- The path of a directory. -/
def DirAt (t : DirTree α) (p : Path) : Prop := p = [] ∨ t.node p matches some .dir

instance (t : DirTree α) (p : Path) : Decidable (t.DirAt p) := inferInstanceAs (Decidable (_ ∨ _))

/-- Nothing lies below the path. -/
def Childless (t : DirTree α) (p : Path) : Prop := ∀ q ∈ t.support, Within p q → (t.node q).isNone

instance (t : DirTree α) (p : Path) : Decidable (t.Childless p) :=
  inferInstanceAs (Decidable (∀ q ∈ t.support, _ → _))

section Facts
variable {t : DirTree α} {p q : Path}

theorem dirAt_iff : t.DirAt p ↔ IsDir t.entry p := by
  unfold DirAt IsDir node
  cases (t.entry p).map Entry.node with
  | none => simp
  | some n => cases n <;> simp

@[simp] theorem node_root (t : DirTree α) : t.node [] = none := by simp [node, t.root]

theorem entry_isSome : (t.entry p).isSome ↔ (t.node p).isSome := by simp [node]

theorem exists_of_dirAt (h : t.DirAt p) : t.Exists p := by
  rcases h with h0 | hd
  · exact Or.inl h0
  · right
    cases hn : t.node p with
    | none => simp [hn] at hd
    | some n => rfl

/-- The kind of an entry. -/
theorem dirAt_iff_of_entry {e : Entry α} (h : t.entry p = some e) : t.DirAt p ↔ e.node = .dir := by
  have hne : p ≠ [] := by
    rintro rfl
    cases t.root.symm.trans h
  rw [DirAt, node, h, Option.map_some]
  cases e.node with
  | dir => simp
  | file content => simp [hne]

/-- What lies below an entry lies below a directory. -/
theorem dirAt_of_within (h : Within p q) (hq : (t.node q).isSome) : t.DirAt p := by
  obtain ⟨⟨r, rfl⟩, hne⟩ := h
  induction r using List.reverseRecOn with
  | nil => exact absurd (List.append_nil p).symm hne
  | append_singleton r c ih =>
    rw [← List.append_assoc, ← entry_isSome] at hq
    have hpar := t.parent _ _ hq
    by_cases hr : r = []
    · subst hr
      rw [dirAt_iff]
      simpa using hpar
    · refine ih ?_ (by simpa using hr)
      rcases hpar with h0 | hd
      · simp [hr] at h0
      · simp [node, hd]

theorem exists_of_prefix (h : p <+: q) (hq : t.Exists q) : t.Exists p := by
  by_cases hpq : p = q
  · exact hpq ▸ hq
  have hsome : (t.node q).isSome := by
    rcases hq with rfl | hq
    · exact absurd (List.prefix_nil.mp h) hpq
    · exact hq
  exact exists_of_dirAt (dirAt_of_within ⟨h, hpq⟩ hsome)

/-- The way to a directory is made of directories. -/
theorem dirAt_of_prefix (h : p <+: q) (hq : t.DirAt q) : t.DirAt p := by
  by_cases hpq : p = q
  · exact hpq ▸ hq
  · rcases exists_of_dirAt hq with rfl | hsome
    · exact absurd (List.prefix_nil.mp h) hpq
    · exact dirAt_of_within ⟨h, hpq⟩ hsome

theorem childless_iff : t.Childless p ↔ ∀ q, Within p q → t.node q = none := by
  constructor
  · intro h q hw
    by_contra hn
    have hs := Option.isSome_iff_ne_none.mpr hn
    exact hn (Option.isNone_iff_eq_none.mp (h q (t.mem_support q (entry_isSome.mpr hs)) hw))
  · exact fun h q _ hw => by simp [h q hw]

end Facts

/-! ### Putting an entry -/

/-- An entry at `p`, in a directory and in the place of no other one. -/
def put (t : DirTree α) (p : Path) (e : Entry α) (hne : p ≠ []) (hdir : t.DirAt p.dropLast)
    (hnot : ¬ t.DirAt p) : DirTree α where
  entry q := if q = p then some e else t.entry q
  support := p :: t.support
  mem_support q hq := by
    split_ifs at hq with h
    · exact h ▸ List.mem_cons_self
    · exact List.mem_cons_of_mem p (t.mem_support q hq)
  root := by rw [if_neg (Ne.symm hne), t.root]
  parent q c hq := by
    rw [dirAt_iff] at hdir hnot
    have hlast : p.dropLast ≠ p := by
      intro heq
      have hlen := congrArg List.length heq
      have hpos := List.length_pos_of_ne_nil hne
      rw [List.length_dropLast] at hlen
      omega
    split_ifs at hq with h
    · have hq : q = p.dropLast := by rw [← h, List.dropLast_concat]
      subst hq
      simpa [IsDir, hlast] using hdir
    · have hdirq := t.parent q c hq
      have hne : q ≠ p := fun heq => hnot (heq ▸ hdirq)
      simpa [IsDir, hne] using hdirq

theorem node_put {t : DirTree α} {p : Path} {e : Entry α} (hne : p ≠ []) (hdir : t.DirAt p.dropLast)
    (hnot : ¬ t.DirAt p) (q : Path) :
    (t.put p e hne hdir hnot).node q = if q = p then some e.node else t.node q := by
  simp only [node, put]
  split_ifs <;> rfl

/-! ### Removing -/

/-- The entry at `p` and all below it are gone. -/
def remove (t : DirTree α) (p : Path) : DirTree α where
  entry q := if p <+: q then none else t.entry q
  support := t.support
  mem_support q hq := by
    split_ifs at hq
    · simp at hq
    · exact t.mem_support q hq
  root := by simp [t.root]
  parent q c hq := by
    split_ifs at hq with h
    · simp at hq
    have hn : ¬ p <+: q := fun hp => h (hp.trans (List.prefix_append q [c]))
    simpa [IsDir, hn] using t.parent q c hq

theorem node_remove (t : DirTree α) (p q : Path) :
    (t.remove p).node q = if p <+: q then none else t.node q := by
  simp only [node, remove]
  split_ifs <;> rfl

/-- Where nothing is, nothing is removed. -/
theorem node_remove_of_empty {t : DirTree α} {p : Path} (h : ∀ r, t.node (p ++ r) = none) (q : Path) :
    (t.remove p).node q = t.node q := by
  rw [node_remove]
  split_ifs with hq
  · obtain ⟨r, rfl⟩ := hq
    exact (h r).symm
  · rfl

/-! ### Renaming -/

/-- The entries once `src` is called `dst` and shown under `name`. -/
def relocated (entry : Path → Option (Entry α)) (src dst : Path) (name : Text) (q : Path) :
    Option (Entry α) :=
  if dst <+: q then
    (entry (src ++ q.drop dst.length)).map fun e => ⟨if q = dst then name else e.name, e.node⟩
  else if src <+: q then none
  else entry q

theorem relocated_node (entry : Path → Option (Entry α)) (src dst : Path) (name : Text) (q : Path) :
    (relocated entry src dst name q).map Entry.node =
      if dst <+: q then (entry (src ++ q.drop dst.length)).map Entry.node
      else if src <+: q then none else (entry q).map Entry.node := by
  unfold relocated
  by_cases h1 : dst <+: q
  · rw [if_pos h1, if_pos h1, Option.map_map]
    rfl
  · rw [if_neg h1, if_neg h1]
    by_cases h2 : src <+: q
    · rw [if_pos h2, if_pos h2]
      rfl
    · rw [if_neg h2, if_neg h2]

/-- By way of a path where nothing is, the entry comes to the same place. -/
theorem relocated_relocated {entry : Path → Option (Entry α)} {src temp dst : Path} (name name' : Text)
    (hfree : ∀ q, temp <+: q → entry q = none) (q : Path) :
    relocated (relocated entry src temp name') temp dst name q = relocated entry src dst name q := by
  unfold relocated
  by_cases hdst : dst <+: q
  · rw [if_pos hdst, if_pos hdst, if_pos (List.prefix_append _ _), List.drop_left, Option.map_map]
    refine congrArg (Option.map · _) (funext fun e => ?_)
    by_cases hq : q = dst
    · simp [hq]
    · have hdrop : q.drop dst.length ≠ [] := by
        obtain ⟨r, rfl⟩ := hdst
        rw [List.drop_left]
        rintro rfl
        exact hq (List.append_nil dst)
      simp [hq, hdrop]
  · rw [if_neg hdst, if_neg hdst]
    by_cases htemp : temp <+: q
    · rw [if_pos htemp, hfree q htemp, ite_self]
    · rw [if_neg htemp, if_neg htemp]

/-- An entry found at `dst` instead of `src`, with all below it. -/
def relocate (t : DirTree α) (src dst : Path) (name : Text) (hsrc : (t.node src).isSome)
    (hdst : dst ≠ []) (hdir : t.DirAt dst.dropLast) (hsub : src <+: dst → src = dst) : DirTree α where
  entry := relocated t.entry src dst name
  support := t.support.map (moved src dst) ++ t.support
  mem_support q hq := by
    unfold relocated at hq
    by_cases h1 : dst <+: q
    · obtain ⟨r, rfl⟩ := h1
      simp only [List.prefix_append, if_true, Option.isSome_map, List.drop_left] at hq
      refine List.mem_append_left _ (List.mem_map.mpr ⟨src ++ r, t.mem_support _ hq, ?_⟩)
      exact moved_append src dst r
    · rw [if_neg h1] at hq
      by_cases h2 : src <+: q
      · simp [h2] at hq
      · rw [if_neg h2] at hq
        exact List.mem_append_right _ (t.mem_support q hq)
  root := by
    have h1 : ¬ dst <+: [] := fun h => hdst (List.prefix_nil.mp h)
    simp [relocated, t.root, h1]
  parent q c hq := by
    have hsne : src ≠ [] := by
      rintro rfl
      simp at hsrc
    -- an untouched directory stays one
    have hkeep : ∀ p, IsDir t.entry p → ¬ dst <+: p → ¬ src <+: p →
        IsDir (relocated t.entry src dst name) p := by
      intro p hp hd hs
      simpa [IsDir, relocated, hd, hs] using hp
    unfold relocated at hq
    by_cases h1 : dst <+: q ++ [c]
    · rw [if_pos h1] at hq
      rcases List.prefix_concat_iff.mp h1 with rfl | hq1
      · rw [dirAt_iff, List.dropLast_concat] at hdir
        refine hkeep q hdir (fun h => ?_) (fun h => ?_)
        · have hlen := h.length_le
          rw [List.length_append, List.length_singleton] at hlen
          omega
        · have hlen := h.length_le
          rw [hsub (h.trans (List.prefix_append q [c]))] at hlen
          rw [List.length_append, List.length_singleton] at hlen
          omega
      · obtain ⟨r, rfl⟩ := hq1
        rw [List.append_assoc, List.drop_left, Option.isSome_map, ← List.append_assoc] at hq
        rcases t.parent _ _ hq with h0 | hd
        · simp [hsne] at h0
        · right
          rw [relocated_node, if_pos (List.prefix_append dst r), List.drop_left, hd]
    · rw [if_neg h1] at hq
      by_cases h2 : src <+: q ++ [c]
      · simp [h2] at hq
      · rw [if_neg h2] at hq
        exact hkeep q (t.parent q c hq) (fun h => h1 (h.trans (List.prefix_append q [c])))
          fun h => h2 (h.trans (List.prefix_append q [c]))

theorem node_relocate {t : DirTree α} {src dst : Path} (name : Text) (hsrc : (t.node src).isSome)
    (hdst : dst ≠ []) (hdir : t.DirAt dst.dropLast) (hsub : src <+: dst → src = dst) (q : Path) :
    (t.relocate src dst name hsrc hdst hdir hsub).node q =
      if dst <+: q then t.node (src ++ q.drop dst.length) else if src <+: q then none else t.node q :=
  relocated_node t.entry src dst name q

/-! ### Trees written down -/

/-- Every entry has a name and lies in a directory. -/
def Closed (es : List (Path × Entry α)) : Prop :=
  ∀ e ∈ es, e.1 ≠ [] ∧ (e.1.dropLast = [] ∨ (es.lookup e.1.dropLast).map Entry.node matches some .dir)

instance (es : List (Path × Entry α)) : Decidable (Closed es) :=
  inferInstanceAs (Decidable (∀ e ∈ es, _ ∧ (_ ∨ _)))

theorem mem_of_lookup {es : List (Path × Entry α)} {p : Path} (h : (es.lookup p).isSome) :
    ∃ e, (p, e) ∈ es := by
  obtain ⟨e, he⟩ := Option.isSome_iff_exists.mp h
  obtain ⟨l1, l2, rfl, -⟩ := List.lookup_eq_some_iff.mp he
  exact ⟨e, by simp⟩

/-- The tree with the given entries. -/
def ofEntries (es : List (Path × Entry α)) (h : Closed es) : DirTree α where
  entry p := es.lookup p
  support := es.map Prod.fst
  mem_support p hp := by
    obtain ⟨e, he⟩ := mem_of_lookup hp
    exact List.mem_map.mpr ⟨_, he, rfl⟩
  root := by
    by_contra hn
    obtain ⟨e, he⟩ := mem_of_lookup (Option.isSome_iff_ne_none.mpr hn)
    exact (h _ he).1 rfl
  parent p c hp := by
    obtain ⟨e, he⟩ := mem_of_lookup hp
    have := (h _ he).2
    rw [List.dropLast_concat] at this
    rcases this with h0 | hd
    · exact Or.inl h0
    · right
      cases hn : (es.lookup p).map Entry.node with
      | none => simp [hn] at hd
      | some n => cases n <;> simp_all

theorem mem_of_ofEntries {es : List (Path × Entry α)} {h : Closed es} {p : Path} {e : Entry α}
    (he : (ofEntries es h).entry p = some e) : (p, e) ∈ es := by
  obtain ⟨l, l', rfl, -⟩ := List.lookup_eq_some_iff.mp he
  exact List.mem_append_right _ List.mem_cons_self

end DirTree

/-! ### Free names -/

/-- The first candidate from `k` on that is not taken, looking at `fuel` of them. -/
def firstFree (taken : ℕ → Bool) : ℕ → ℕ → ℕ
  | 0, k => k
  | fuel + 1, k => if taken k then firstFree taken fuel (k + 1) else k

theorem firstFree_spec (taken : ℕ → Bool) {fuel k : ℕ} (h : ∃ j < fuel, taken (k + j) = false) :
    taken (firstFree taken fuel k) = false ∧
      ∀ j, k ≤ j → j < firstFree taken fuel k → taken j = true := by
  induction fuel generalizing k with
  | zero => simp at h
  | succ fuel ih =>
    unfold firstFree
    by_cases hk : taken k
    · obtain ⟨j, hj, hfree⟩ := h
      obtain ⟨j, rfl⟩ : ∃ i, j = i + 1 := by
        cases j with
        | zero => simp [hk] at hfree
        | succ i => exact ⟨i, rfl⟩
      obtain ⟨h1, h2⟩ := ih (k := k + 1) ⟨j, by omega, by rwa [show k + 1 + j = k + (j + 1) by omega]⟩
      rw [if_pos hk]
      refine ⟨h1, fun i hi hlt => ?_⟩
      by_cases hik : i = k
      · exact hik ▸ hk
      · exact h2 i (by omega) hlt
    · rw [if_neg hk]
      exact ⟨by simpa using hk, fun j h1 h2 => by omega⟩

/-- Of `names.length + 1` candidates one is not among the names. -/
theorem exists_free {β : Type*} [DecidableEq β] (names : List β) {f : ℕ → β} (hf : Function.Injective f) :
    ∃ j < names.length + 1, f j ∉ names := by
  by_contra h
  push Not at h
  have hnd : ((List.range (names.length + 1)).map f).Nodup := (List.nodup_map_iff hf).mpr List.nodup_range
  have hsub : (List.range (names.length + 1)).map f ⊆ names := by
    intro x hx
    obtain ⟨j, hj, rfl⟩ := List.mem_map.mp hx
    exact h j (List.mem_range.mp hj)
  have hlen := hnd.length_le_of_subset hsub
  simp only [List.length_map, List.length_range] at hlen
  omega

end Notely.Lib.FileTree
