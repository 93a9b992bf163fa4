import Mathlib.Algebra.Order.Ring.Rat
import Notely.Engine.HybridSearch
import Notely.Lib.Rankings

/-! # Rank fusion returns the best passages

`fuse_rrf` adds up the reciprocal ranks of a passage in two tables that it fills list by list, sorts the
scores, and looks the passages up again. The result is told by the ranks alone.

* `rrfScore`: the score of a key, from its places in the two lists.
* `get_scores`: the scores that the two passes leave.
* `TopK`: what the best passages are; `fuseRrf_topK`: the fusion returns them. -/

namespace Notely.Engine.RankFusion

open Notely.Lib.Table Notely.Lib.Rankings Notely.Engine.SearchIndex Notely.Engine.HybridSearch

/-! ### Scores -/

/-- What a place in a list is worth to a key. -/
def contribution (l : List Passage) (k : Key) : ℚ :=
  match l.findIdx? (·.key = k) with
  | some rank => 1 / (60 + rank + 1)
  | none => 0

/-- The score of a key: what its places are worth, added up. -/
def rrfScore (lexical dense : List Passage) (k : Key) : ℚ := contribution lexical k + contribution dense k

/-- **The best passages**: as many as there are keys, up to the limit; of different keys; the best first; none left
out that is better; and the lexical one where both lists have one. -/
structure TopK (lexical dense : List Passage) (limit : ℕ) (out : List Passage) : Prop where
  length : out.length = min limit ((lexical ++ dense).map Passage.key).dedup.length
  distinct : (out.map Passage.key).Nodup
  sorted : out.Pairwise fun p q => rrfScore lexical dense q.key ≤ rrfScore lexical dense p.key
  best : ∀ k ∈ (lexical ++ dense).map Passage.key, k ∉ out.map Passage.key →
    ∀ p ∈ out, rrfScore lexical dense k ≤ rrfScore lexical dense p.key
  passage : ∀ p ∈ out, p ∈ lexical ∨ p ∈ dense ∧ p.key ∉ lexical.map Passage.key

section Scores
variable {f : Fusion} {l lexical dense : List Passage} {k : Key}

theorem contribution_of_notMem (h : k ∉ l.map Passage.key) : contribution l k = 0 := by
  have hnone : l.findIdx? (·.key = k) = none := by
    rw [List.findIdx?_eq_none_iff]
    intro p hp
    have : p.key ≠ k := fun hk => h (hk ▸ List.mem_map_of_mem hp)
    simpa using this
  rw [contribution, hnone]

/-- A list leaves the scores of other keys. -/
theorem get_scores_of_notMem (n : ℕ) (h : k ∉ l.map Passage.key) :
    get k ((l.zipIdx n).foldl Fusion.add f).scores = get k f.scores := by
  induction l generalizing f n with
  | nil => rfl
  | cons p l ih =>
    rw [List.map_cons, List.mem_cons, not_or] at h
    rw [List.zipIdx_cons, List.foldl_cons, ih _ h.2]
    exact get_upsert_of_ne h.1

/-- A list adds to the score of a key that it has once what its place is worth. -/
theorem get_scores_of_mem (n : ℕ) (hn : (l.map Passage.key).Nodup) (h : k ∈ l.map Passage.key) :
    ∃ rank, l.findIdx? (·.key = k) = some rank ∧
      get k ((l.zipIdx n).foldl Fusion.add f).scores =
        some ((get k f.scores).getD 0 + 1 / (60 + (n + rank : ℕ) + 1)) := by
  induction l generalizing f n with
  | nil => simp at h
  | cons p l ih =>
    rw [List.map_cons, List.nodup_cons] at hn
    rw [List.zipIdx_cons, List.foldl_cons, List.findIdx?_cons]
    by_cases hk : p.key = k
    · subst hk
      refine ⟨0, by simp, ?_⟩
      rw [get_scores_of_notMem _ hn.1]
      exact get_upsert_self
    · have hmem : k ∈ l.map Passage.key := (List.mem_cons.mp h).resolve_left (Ne.symm hk)
      obtain ⟨rank, hrank, hget⟩ := ih (f := f.add (p, n)) (n + 1) hn.2 hmem
      refine ⟨rank + 1, by simp [hk, hrank], ?_⟩
      have hother : get k (f.add (p, n)).scores = get k f.scores := get_upsert_of_ne (Ne.symm hk)
      rw [hget, hother, Nat.add_right_comm, Nat.add_assoc n]

/-- What a list does to the score of one of its keys. -/
theorem get_scores_list (hn : (l.map Passage.key).Nodup) (h : k ∈ l.map Passage.key) :
    get k (l.zipIdx.foldl Fusion.add f).scores = some ((get k f.scores).getD 0 + contribution l k) := by
  obtain ⟨rank, hrank, hget⟩ := get_scores_of_mem (f := f) 0 hn h
  rw [hget, contribution, hrank, Nat.zero_add]

/-- The two tables, filled. -/
def fused (lexical dense : List Passage) : Fusion :=
  dense.zipIdx.foldl Fusion.add (lexical.zipIdx.foldl Fusion.add ⟨[], []⟩)

/-- **The scores left are those of the keys.** -/
theorem get_scores (hl : (lexical.map Passage.key).Nodup) (hd : (dense.map Passage.key).Nodup)
    (h : k ∈ (lexical ++ dense).map Passage.key) :
    get k (fused lexical dense).scores = some (rrfScore lexical dense k) := by
  unfold fused rrfScore
  by_cases hkl : k ∈ lexical.map Passage.key
  · have hlex := get_scores_list (f := ⟨[], []⟩) hl hkl
    rw [get_nil, Option.getD_none, zero_add] at hlex
    by_cases hkd : k ∈ dense.map Passage.key
    · rw [get_scores_list hd hkd, hlex, Option.getD_some]
    · rw [get_scores_of_notMem 0 hkd, hlex, contribution_of_notMem hkd, add_zero]
  · rw [List.map_append, List.mem_append] at h
    have hkd := h.resolve_left hkl
    rw [get_scores_list hd hkd, get_scores_of_notMem 0 hkl, get_nil, Option.getD_none,
      contribution_of_notMem hkl]

/-- The keys of the scores are the keys of the lists. -/
theorem mem_keys_fused : k ∈ (fused lexical dense).scores.map Prod.fst ↔ k ∈ (lexical ++ dense).map Passage.key := by
  have hkeys (l : List Passage) : (l.zipIdx.map fun pr => pr.1.key) = l.map Passage.key := by
    rw [show (fun pr : Passage × ℕ => pr.1.key) = Passage.key ∘ Prod.fst from rfl, ← List.map_map,
      List.zipIdx_map_fst]
  rw [fused, scores_foldl_add, mem_keys_fill, scores_foldl_add, mem_keys_fill, hkeys, hkeys, List.map_append,
    List.mem_append]
  simp

theorem nodup_keys_fused (lexical dense : List Passage) : ((fused lexical dense).scores.map Prod.fst).Nodup := by
  rw [fused, scores_foldl_add, scores_foldl_add]
  exact nodup_keys_fill (nodup_keys_fill List.nodup_nil)

theorem length_scores_fused (lexical dense : List Passage) :
    (fused lexical dense).scores.length = ((lexical ++ dense).map Passage.key).dedup.length := by
  have hperm : ((fused lexical dense).scores.map Prod.fst).Perm ((lexical ++ dense).map Passage.key).dedup :=
    (List.perm_ext_iff_of_nodup (nodup_keys_fused lexical dense) (List.nodup_dedup _)).mpr fun k => by
      rw [mem_keys_fused, List.mem_dedup]
  rw [← hperm.length_eq, List.length_map]

/-- The passage looked up for a key: the lexical one if there is one. -/
theorem get_passages (h : k ∈ (lexical ++ dense).map Passage.key) :
    ∃ p, get k (fused lexical dense).passages = some p ∧ p.key = k ∧
      (p ∈ lexical ∨ p ∈ dense ∧ p.key ∉ lexical.map Passage.key) := by
  rw [fused, get_foldl_add, get_foldl_add, List.zipIdx_map_fst, List.zipIdx_map_fst, get_nil, Option.none_or]
  cases hlex : lexical.find? (·.key = k) with
  | some p =>
    have hkey := List.find?_some hlex
    exact ⟨p, by simp, by simpa using hkey, Or.inl (List.mem_of_find?_eq_some hlex)⟩
  | none =>
    have hno : k ∉ lexical.map Passage.key := by
      intro hmem
      obtain ⟨p, hp, hpk⟩ := List.mem_map.mp hmem
      simpa [hpk] using List.find?_eq_none.mp hlex p hp
    rw [List.map_append, List.mem_append] at h
    obtain ⟨q, hq, hqk⟩ := List.mem_map.mp (h.resolve_left hno)
    have hsome : (dense.find? (·.key = k)).isSome := List.find?_isSome.mpr ⟨q, hq, by simpa using hqk⟩
    obtain ⟨p, hp⟩ := Option.isSome_iff_exists.mp hsome
    have hkey : p.key = k := by simpa using List.find?_some hp
    exact ⟨p, by rw [hp, Option.none_or], hkey, Or.inr ⟨List.mem_of_find?_eq_some hp, hkey ▸ hno⟩⟩

end Scores

/-! ### The ranking -/

section Ranking
variable {order : HashOrder (Key × ℚ)} {lexical dense : List Passage} {limit : ℕ}

/-- `ranked`, sorted. -/
def ranked (order : HashOrder (Key × ℚ)) (lexical dense : List Passage) : List (Key × ℚ) :=
  (order.shuffle (fused lexical dense).scores).mergeSort fun a b => decide (b.2 ≤ a.2)

theorem fuseRrf_eq : fuseRrf order lexical dense limit =
    ((ranked order lexical dense).take limit).filterMap fun row => get row.1 (fused lexical dense).passages := rfl

theorem ranked_perm : (ranked order lexical dense).Perm (fused lexical dense).scores :=
  (List.mergeSort_perm _ _).trans (order.perm _)

theorem ranked_sorted (order : HashOrder (Key × ℚ)) (lexical dense : List Passage) :
    (ranked order lexical dense).Pairwise fun a b => b.2 ≤ a.2 :=
  sorted_mergeSort Prod.snd (order.shuffle (fused lexical dense).scores)

theorem nodup_keys_ranked : ((ranked order lexical dense).map Prod.fst).Nodup :=
  (ranked_perm.map _).nodup_iff.mpr (nodup_keys_fused lexical dense)

/-- The rows ranked are the keys of the lists, each with its score. -/
theorem mem_ranked (hl : (lexical.map Passage.key).Nodup) (hd : (dense.map Passage.key).Nodup) {row : Key × ℚ} :
    row ∈ ranked order lexical dense ↔
      row.1 ∈ (lexical ++ dense).map Passage.key ∧ row.2 = rrfScore lexical dense row.1 := by
  obtain ⟨k, score⟩ := row
  rw [ranked_perm.mem_iff, mem_iff_get (nodup_keys_fused lexical dense)]
  constructor
  · intro h
    have hk : k ∈ (lexical ++ dense).map Passage.key := by
      rw [← mem_keys_fused, ← isSome_get, h]
      rfl
    rw [get_scores hl hd hk, Option.some.injEq] at h
    exact ⟨hk, h.symm⟩
  · rintro ⟨hk, hscore⟩
    rw [get_scores hl hd hk, Option.some.injEq]
    exact hscore.symm

/-- Every row taken is found again: the passages returned have its keys. -/
theorem keys_fuseRrf (hl : (lexical.map Passage.key).Nodup) (hd : (dense.map Passage.key).Nodup) :
    (fuseRrf order lexical dense limit).map Passage.key = ((ranked order lexical dense).take limit).map Prod.fst := by
  rw [fuseRrf_eq, List.map_filterMap, ← List.filterMap_eq_map]
  refine List.filterMap_congr fun row hrow => ?_
  have hk := ((mem_ranked hl hd).mp (List.mem_of_mem_take hrow)).1
  obtain ⟨p, hp, hkey, -⟩ := get_passages hk
  rw [hp, Option.map_some, hkey, Function.comp]

/-- **Rank fusion returns the best passages.** -/
theorem fuseRrf_topK (order : HashOrder (Key × ℚ)) (lexical dense : List Passage) (limit : ℕ)
    (hl : (lexical.map Passage.key).Nodup) (hd : (dense.map Passage.key).Nodup) :
    TopK lexical dense limit (fuseRrf order lexical dense limit) := by
  have hkeys : (fuseRrf order lexical dense limit).map Passage.key =
      ((ranked order lexical dense).take limit).map Prod.fst := keys_fuseRrf hl hd
  have hscore {row : Key × ℚ} (hrow : row ∈ ranked order lexical dense) :
      row.2 = rrfScore lexical dense row.1 := ((mem_ranked hl hd).mp hrow).2
  have hsplit := ranked_sorted order lexical dense
  rw [← List.take_append_drop limit (ranked order lexical dense)] at hsplit
  obtain ⟨hkept, -, hleft⟩ := List.pairwise_append.mp hsplit
  refine ⟨?_, ?_, ?_, ?_, ?_⟩
  · have hlen := congrArg List.length hkeys
    rw [List.length_map, List.length_map, List.length_take, ranked_perm.length_eq, length_scores_fused] at hlen
    exact hlen
  · rw [hkeys]
    exact nodup_keys_ranked.sublist ((List.take_sublist _ _).map _)
  · have hrows : (((ranked order lexical dense).take limit).map Prod.fst).Pairwise fun k k' =>
        rrfScore lexical dense k' ≤ rrfScore lexical dense k := by
      refine List.pairwise_map.mpr (hkept.imp_of_mem fun ha hb hab => ?_)
      rwa [← hscore (List.mem_of_mem_take ha), ← hscore (List.mem_of_mem_take hb)]
    rw [← hkeys, List.pairwise_map] at hrows
    exact hrows
  · intro k hk hout p hp
    have hrow : (k, rrfScore lexical dense k) ∈ (ranked order lexical dense).drop limit := by
      have hmem : (k, rrfScore lexical dense k) ∈ ranked order lexical dense := (mem_ranked hl hd).mpr ⟨hk, rfl⟩
      rw [← List.take_append_drop limit (ranked order lexical dense), List.mem_append] at hmem
      refine hmem.resolve_left fun htake => hout ?_
      rw [hkeys]
      exact List.mem_map_of_mem htake
    have hpk : p.key ∈ ((ranked order lexical dense).take limit).map Prod.fst := hkeys ▸ List.mem_map_of_mem hp
    obtain ⟨row, htake, hrowk⟩ := List.mem_map.mp hpk
    have hle := hleft row htake _ hrow
    rwa [hscore (List.mem_of_mem_take htake), hrowk] at hle
  · intro p hp
    rw [fuseRrf_eq] at hp
    obtain ⟨row, hrow, hget⟩ := List.mem_filterMap.mp hp
    obtain ⟨q, hq, -, hsource⟩ := get_passages ((mem_ranked hl hd).mp (List.mem_of_mem_take hrow)).1
    rw [hq, Option.some.injEq] at hget
    exact hget ▸ hsource

end Ranking

/-- The first line of a note, as a passage. -/
def firstLine (name : Char) : Passage where
  path := [[name]]
  title := ['t']
  startLine := 0
  endLine := 0
  body := ['b']

/-- A passage that both lists have comes first, and once. -/
theorem fuseRrf_topK_shared :
    TopK [firstLine 'a', firstLine 'b'] [firstLine 'c', firstLine 'a'] 10
      (fuseRrf ⟨id, fun l => .refl l⟩ [firstLine 'a', firstLine 'b'] [firstLine 'c', firstLine 'a'] 10) :=
  fuseRrf_topK ⟨id, fun l => .refl l⟩ _ _ 10 (by decide) (by decide)

end Notely.Engine.RankFusion
