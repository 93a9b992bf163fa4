import Notely.Engine.RankFusion

/-! # When rank fusion is reproducible

`fuse_rrf` sorts the rows of a hash map, which gives them in another order on every run. The sort is stable, so
passages of equal score stay in that order. How scores are added up is left open (`Arithmetic`): rounded numbers may
tie where exact ones do not, and the other way round.

* `fuse`, `retrieve`: the fusion and the retrieval, over any arithmetic; over the rational numbers they are the ones
  of the index (`fuseRrf_eq_fuse`, `retrieveHybrid_eq_retrieve`).
* `ranking_rankedKeys`, `exists_order`: an order of the map gives a ranking of the keys, and any of them.
* `reproducible_iff`: the result is the same for every order of the map exactly if no tie is visible. -/

namespace Notely.Engine.FusionTies

open Notely.Lib.Strings Notely.Lib.Table Notely.Lib.Rankings
open Notely.Engine.SearchIndex Notely.Engine.HybridSearch Notely.Engine.RankFusion

/-! ### Fusion over any arithmetic -/

/-- The numbers that the scores are. -/
structure Arithmetic (S : Type) where
  zero : S
  add : S → S → S
  /-- `1.0 / (RRF_K + rank + 1.0)`. -/
  reciprocal : ℕ → S

/-- Exact scores. -/
def rational : Arithmetic ℚ := ⟨0, (· + ·), fun rank => 1 / (60 + rank + 1)⟩

/-- `scores` and `passages`. -/
structure Tables (S : Type) where
  scores : List (Key × S)
  passages : List (Key × Passage)

variable {S : Type}

/-- One passage of one list, at its rank. -/
def Tables.add (A : Arithmetic S) (f : Tables S) : Passage × ℕ → Tables S
  | (p, rank) =>
    { scores := upsert (fun old => A.add (old.getD A.zero) (A.reciprocal rank)) p.key f.scores
      passages := upsert (fun old => old.getD p) p.key f.passages }

/-- Both tables, filled from the two lists. -/
def filled (A : Arithmetic S) (lexical dense : List Passage) : Tables S :=
  dense.zipIdx.foldl (Tables.add A) (lexical.zipIdx.foldl (Tables.add A) ⟨[], []⟩)

/-- `fuse_rrf`. -/
def fuse [LinearOrder S] (A : Arithmetic S) (order : HashOrder (Key × S)) (lexical dense : List Passage)
    (limit : ℕ) : List Passage :=
  let ranked := (order.shuffle (filled A lexical dense).scores).mergeSort fun a b => decide (b.2 ≤ a.2)
  (ranked.take limit).filterMap fun (key, _) => get key (filled A lexical dense).passages

variable {F : Type}

/-- The passages that full-text search finds. -/
def lexicalOf (s : Searcher F) (db : Db F) (query : Text) (limit : ℕ) : List Passage :=
  if toFtsQuery s.letters query = [] then [] else s.fts.search (toFtsQuery s.letters query) limit db.chunks

/-- The passages that are near to the vector of the query. -/
def denseOf (s : Searcher F) (db : Db F) (queryVector : Option (List F)) (limit : ℕ) : List Passage :=
  match queryVector with
  | some v => if v = [] then [] else vectorSearch s.similarity db v limit
  | none => []

/-- `retrieve_hybrid`. -/
def retrieve [LinearOrder S] (A : Arithmetic S) (order : HashOrder (Key × S)) (s : Searcher F) (db : Db F)
    (query : Text) (limit : ℕ) (queryVector : Option (List F)) : List Passage :=
  if denseOf s db queryVector limit = [] then lexicalOf s db query limit
  else fuse A order (lexicalOf s db query limit) (denseOf s db queryVector limit) limit

theorem add_rational (f : Fusion) (pr : Passage × ℕ) :
    Tables.add rational ⟨f.scores, f.passages⟩ pr = ⟨(f.add pr).scores, (f.add pr).passages⟩ := rfl

theorem filled_rational (lexical dense : List Passage) :
    filled rational lexical dense = ⟨(fused lexical dense).scores, (fused lexical dense).passages⟩ := by
  have hfold (l : List (Passage × ℕ)) (f : Fusion) : l.foldl (Tables.add rational) ⟨f.scores, f.passages⟩ =
      ⟨(l.foldl Fusion.add f).scores, (l.foldl Fusion.add f).passages⟩ := by
    induction l generalizing f with
    | nil => rfl
    | cons pr l ih => rw [List.foldl_cons, List.foldl_cons, add_rational, ih]
  have hlexical := hfold lexical.zipIdx ⟨[], []⟩
  rw [filled, fused, hlexical, hfold]

theorem fuseRrf_eq_fuse (order : HashOrder (Key × ℚ)) (lexical dense : List Passage) (limit : ℕ) :
    fuseRrf order lexical dense limit = fuse rational order lexical dense limit := by
  rw [fuse, filled_rational]
  rfl

theorem retrieveHybrid_eq_retrieve (s : Searcher F) (db : Db F) (query : Text) (limit : ℕ)
    (queryVector : Option (List F)) :
    retrieveHybrid s db query limit queryVector = retrieve rational s.order s db query limit queryVector := by
  rw [retrieve, ← fuseRrf_eq_fuse]
  rfl

/-! ### Scores -/

/-- The score of a key: what each of its places is worth, added up in the order of the lists. -/
def scoreOf (A : Arithmetic S) (lexical dense : List Passage) (k : Key) : S :=
  ((lexical.zipIdx ++ dense.zipIdx).filter (·.1.key = k)).foldl (fun score pr => A.add score (A.reciprocal pr.2)) A.zero

/-- The keys of the two lists. -/
def keysOf (lexical dense : List Passage) : List Key := ((lexical ++ dense).map Passage.key).dedup

section Scores
variable {A : Arithmetic S} {f : Tables S} {lexical dense : List Passage} {k : Key} {l : List (Passage × ℕ)}

/-- The places of a key in a list are added to its score. -/
theorem getD_scores_foldl : (get k (l.foldl (Tables.add A) f).scores).getD A.zero =
    (l.filter (·.1.key = k)).foldl (fun score pr => A.add score (A.reciprocal pr.2))
      ((get k f.scores).getD A.zero) := by
  induction l generalizing f with
  | nil => rfl
  | cons pr l ih =>
    obtain ⟨p, rank⟩ := pr
    rw [List.foldl_cons, ih, List.filter_cons]
    by_cases hk : p.key = k
    · subst hk
      have hget : get p.key (f.add A (p, rank)).scores =
          some (A.add ((get p.key f.scores).getD A.zero) (A.reciprocal rank)) := get_upsert_self
      rw [hget, if_pos (decide_eq_true rfl), List.foldl_cons]
      rfl
    · have hget : get k (f.add A (p, rank)).scores = get k f.scores := get_upsert_of_ne (Ne.symm hk)
      rw [hget, if_neg (by simpa using hk)]

/-- The scores are filled in from the list. -/
theorem scores_foldl : (l.foldl (Tables.add A) f).scores =
    fill (·.1.key) (fun pr old => A.add (old.getD A.zero) (A.reciprocal pr.2)) f.scores l := by
  induction l generalizing f with
  | nil => rfl
  | cons pr l ih => exact ih

theorem filled_eq : filled A lexical dense = (lexical.zipIdx ++ dense.zipIdx).foldl (Tables.add A) ⟨[], []⟩ := by
  rw [filled, List.foldl_append]

theorem nodup_keys_filled : ((filled A lexical dense).scores.map Prod.fst).Nodup := by
  rw [filled_eq, scores_foldl]
  exact nodup_keys_fill List.nodup_nil

theorem mem_keys_filled : k ∈ (filled A lexical dense).scores.map Prod.fst ↔ k ∈ keysOf lexical dense := by
  have hkeys (l : List Passage) : (l.zipIdx.map fun pr => pr.1.key) = l.map Passage.key := by
    rw [show (fun pr : Passage × ℕ => pr.1.key) = Passage.key ∘ Prod.fst from rfl, ← List.map_map,
      List.zipIdx_map_fst]
  rw [filled_eq, scores_foldl, mem_keys_fill, List.map_append, hkeys, hkeys, keysOf, List.mem_dedup, List.map_append]
  simp

theorem score_of_row {row : Key × S} (h : row ∈ (filled A lexical dense).scores) :
    row.2 = scoreOf A lexical dense row.1 := by
  have hget : get row.1 (filled A lexical dense).scores = some row.2 := (mem_iff_get nodup_keys_filled).mp h
  have hscore := getD_scores_foldl (A := A) (f := ⟨[], []⟩) (k := row.1) (l := lexical.zipIdx ++ dense.zipIdx)
  rw [← filled_eq, hget, Option.getD_some] at hscore
  exact hscore

/-- **The rows of the table** are the keys with their scores. -/
theorem scores_perm : (filled A lexical dense).scores.Perm
    ((keysOf lexical dense).map fun k => (k, scoreOf A lexical dense k)) := by
  have hnodup : ((keysOf lexical dense).map fun k => (k, scoreOf A lexical dense k)).Nodup :=
    (List.nodup_dedup _).map fun k k' h => (Prod.mk.inj h).1
  refine (List.perm_ext_iff_of_nodup (List.Nodup.of_map _ nodup_keys_filled) hnodup).mpr fun row => ?_
  obtain ⟨k, score⟩ := row
  rw [List.mem_map]
  constructor
  · intro h
    exact ⟨k, mem_keys_filled.mp (List.mem_map_of_mem h), Prod.ext rfl (score_of_row h).symm⟩
  · rintro ⟨k', hk', heq⟩
    obtain ⟨row, hrow, hkey⟩ := List.mem_map.mp ((mem_keys_filled (A := A)).mpr hk')
    have hpair : row = (k', scoreOf A lexical dense k') := Prod.ext hkey (hkey ▸ score_of_row hrow)
    rw [← heq, ← hpair]
    exact hrow

/-- The passages that are looked up do not depend on the scores. -/
theorem passages_filled : (filled A lexical dense).passages = (fused lexical dense).passages := by
  have hfold (l : List (Passage × ℕ)) (f : Tables S) (g : Fusion) (h : f.passages = g.passages) :
      (l.foldl (Tables.add A) f).passages = (l.foldl Fusion.add g).passages := by
    induction l generalizing f g with
    | nil => exact h
    | cons pr l ih =>
      refine ih (f.add A pr) (g.add pr) ?_
      show upsert _ pr.1.key f.passages = upsert _ pr.1.key g.passages
      rw [h]
  exact hfold _ _ _ (hfold _ _ _ rfl)

end Scores

/-! ### Rankings of the keys -/

section Ties
variable [LinearOrder S] {A : Arithmetic S} {order : HashOrder (Key × S)} {lexical dense : List Passage} {limit : ℕ}

/-- The keys in the order they are ranked in. -/
def rankedKeys (A : Arithmetic S) (order : HashOrder (Key × S)) (lexical dense : List Passage) : List Key :=
  ((order.shuffle (filled A lexical dense).scores).mergeSort fun a b => decide (b.2 ≤ a.2)).map Prod.fst

theorem ranking_rankedKeys :
    Ranking (scoreOf A lexical dense) (keysOf lexical dense) (rankedKeys A order lexical dense) where
  perm := by
    have hperm := ((List.mergeSort_perm (order.shuffle (filled A lexical dense).scores)
      fun a b => decide (b.2 ≤ a.2)).trans (order.perm _)).trans scores_perm
    have hkeys := hperm.map Prod.fst
    rwa [List.map_map, show Prod.fst ∘ (fun k => (k, scoreOf A lexical dense k)) = id from rfl, List.map_id] at hkeys
  sorted := by
    have hsorted := sorted_mergeSort Prod.snd (order.shuffle (filled A lexical dense).scores)
    refine List.pairwise_map.mpr (hsorted.imp_of_mem fun {a b} ha hb hab => ?_)
    have hrow {row : Key × S} (hmem : row ∈ (order.shuffle (filled A lexical dense).scores).mergeSort
        fun a b => decide (b.2 ≤ a.2)) : row.2 = scoreOf A lexical dense row.1 :=
      score_of_row ((order.perm _).mem_iff.mp ((List.mergeSort_perm _ _).mem_iff.mp hmem))
    rwa [← hrow ha, ← hrow hb]

/-- **The map may be walked in an order that gives any ranking of the keys.** -/
theorem exists_order {R : List Key} (h : Ranking (scoreOf A lexical dense) (keysOf lexical dense) R) :
    ∃ order, rankedKeys A order lexical dense = R := by
  have hrows : Ranking Prod.snd (filled A lexical dense).scores (R.map fun k => (k, scoreOf A lexical dense k)) :=
    ⟨(h.perm.map _).trans scores_perm.symm, List.pairwise_map.mpr h.sorted⟩
  refine ⟨⟨fun l => if l = (filled A lexical dense).scores then R.map fun k => (k, scoreOf A lexical dense k) else l,
    fun l => ?_⟩, ?_⟩
  · split_ifs with hl
    · exact hl ▸ hrows.perm
    · exact List.Perm.refl l
  · unfold rankedKeys
    dsimp only
    rw [if_pos rfl, mergeSort_ranking hrows, List.map_map]
    exact List.map_id R

theorem fuse_eq : fuse A order lexical dense limit =
    ((rankedKeys A order lexical dense).take limit).filterMap fun k => get k (fused lexical dense).passages := by
  unfold fuse rankedKeys
  rw [passages_filled, ← List.map_take, List.filterMap_map]
  rfl

/-- The passages returned have the first keys. -/
theorem keys_fuse :
    (fuse A order lexical dense limit).map Passage.key = (rankedKeys A order lexical dense).take limit := by
  have hsome {k : Key} (hk : k ∈ (rankedKeys A order lexical dense).take limit) :
      (get k (fused lexical dense).passages).map Passage.key = some k := by
    have hmem : k ∈ keysOf lexical dense := ranking_rankedKeys.perm.mem_iff.mp (List.mem_of_mem_take hk)
    obtain ⟨p, hp, hkey, -⟩ := get_passages (List.mem_dedup.mp hmem)
    rw [hp, Option.map_some, hkey]
  rw [fuse_eq, List.map_filterMap, List.filterMap_congr fun k hk => hsome hk, List.filterMap_some]

theorem fuse_stable_iff : (∀ order order', fuse A order lexical dense limit = fuse A order' lexical dense limit) ↔
    NoVisibleTie (scoreOf A lexical dense) (keysOf lexical dense) limit := by
  rw [← take_eq_iff]
  constructor
  · intro h R R' hR hR'
    obtain ⟨order, rfl⟩ := exists_order hR
    obtain ⟨order', rfl⟩ := exists_order hR'
    rw [← keys_fuse, ← keys_fuse, h order order']
  · intro h order order'
    rw [fuse_eq, fuse_eq, h _ _ ranking_rankedKeys ranking_rankedKeys]

end Ties

/-- **Fusion and retrieval are reproducible exactly if no tie is visible**: any two different keys of equal score have
at least `limit` keys of a greater one. A retrieval without dense passages does not fuse. -/
theorem reproducible_iff [LinearOrder S] (A : Arithmetic S) :
    (∀ lexical dense limit,
      (∀ order order', fuse A order lexical dense limit = fuse A order' lexical dense limit) ↔
        NoVisibleTie (scoreOf A lexical dense) (keysOf lexical dense) limit) ∧
    ∀ (F : Type) (s : Searcher F) (db : Db F) (query : Text) (limit : ℕ) (queryVector : Option (List F)),
      (∀ order order', retrieve A order s db query limit queryVector = retrieve A order' s db query limit queryVector) ↔
        denseOf s db queryVector limit = [] ∨
          NoVisibleTie (scoreOf A (lexicalOf s db query limit) (denseOf s db queryVector limit))
            (keysOf (lexicalOf s db query limit) (denseOf s db queryVector limit)) limit := by
  refine ⟨fun lexical dense limit => fuse_stable_iff, fun F s db query limit queryVector => ?_⟩
  unfold retrieve
  by_cases hdense : denseOf s db queryVector limit = []
  · simp [hdense]
  · rw [or_iff_right hdense, ← fuse_stable_iff]
    simp only [if_neg hdense]

/-- **The first passage of one list and the first of the other change places.** -/
theorem fusion_unstable : ¬ ∀ (lexical dense : List Passage) (limit : ℕ) (order order' : HashOrder (Key × ℚ)),
    fuseRrf order lexical dense limit = fuseRrf order' lexical dense limit := by
  intro h
  have hrun (order : HashOrder (Key × ℚ)) (hsorted : (order.shuffle
      (fused [firstLine 'a'] [firstLine 'b']).scores).Pairwise fun x y => y.2 ≤ x.2) :
      fuseRrf order [firstLine 'a'] [firstLine 'b'] 2 = ((order.shuffle
        (fused [firstLine 'a'] [firstLine 'b']).scores).take 2).filterMap fun row =>
          get row.1 (fused [firstLine 'a'] [firstLine 'b']).passages := by
    rw [fuseRrf_eq, ranked, mergeSort_ranking ⟨List.Perm.refl _, hsorted⟩]
  have heq := h [firstLine 'a'] [firstLine 'b'] 2 ⟨id, List.Perm.refl⟩ ⟨List.reverse, List.reverse_perm⟩
  rw [hrun _ (by decide +kernel), hrun _ (by decide +kernel)] at heq
  exact absurd heq (by decide +kernel)

end Notely.Engine.FusionTies
