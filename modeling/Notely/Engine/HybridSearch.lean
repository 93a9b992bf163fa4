import Notely.Engine.SearchSync

/-! # Hybrid search returns what was embedded

The rows of `embeddings` are their own copies of passages. `index_file` replaces the rows of `chunks` only,
so between a sync that indexes a changed note and the next embedding of it the dense side still finds the
old passages. The history of an index is followed by two ghosts: the text each note was last indexed from,
and the text it was last embedded from.

* `Inv`: the passages of a note are those of the one text, the embedded ones those of the other.
* `mem_fuseRrf`, `mem_fuseRrf_dense`: the fusion returns passages of its two lists, and all of the dense
  one if nothing competes.
* `passages_current_iff`: a search returns only passages of the texts just indexed exactly if every note
  was embedded from that text, or what is left of its old passages is in the new text too. -/

namespace Notely.Engine.HybridSearch

open Notely.Lib.Strings Notely.Lib.Paths Notely.Lib.Table
open Notely.Engine.VaultFiles Notely.Engine.SearchIndex Notely.Engine.SearchSync

/-! ### Rank fusion -/

section Fusion
variable {f : Fusion} {l : List (Passage × ℕ)}

/-- The passage kept for a key: the first that came with it. -/
theorem get_foldl_add (l : List (Passage × ℕ)) (f : Fusion) (k : Key) :
    get k (l.foldl Fusion.add f).passages =
      (get k f.passages).or ((l.map Prod.fst).find? (·.key = k)) := by
  induction l generalizing f with
  | nil => simp
  | cons pr l ih =>
    obtain ⟨p, rank⟩ := pr
    rw [List.foldl_cons, ih, List.map_cons, List.find?_cons]
    by_cases hk : p.key = k
    · subst hk
      simp only [Fusion.add, get_upsert_self, decide_true]
      cases get p.key f.passages <;> rfl
    · have hne : k ≠ p.key := fun h => hk h.symm
      simp only [Fusion.add, get_upsert_of_ne hne, hk, decide_false]

/-- The scores are filled in from the list. -/
theorem scores_foldl_add (l : List (Passage × ℕ)) (f : Fusion) : (l.foldl Fusion.add f).scores =
    fill (·.1.key) (fun pr old => old.getD 0 + 1 / (60 + (pr.2 : ℚ) + 1)) f.scores l := by
  induction l generalizing f with
  | nil => rfl
  | cons pr l ih => exact ih (f.add pr)

end Fusion

section Fuse
variable {order : HashOrder (Key × ℚ)} {lexical dense : List Passage} {limit : ℕ} {p : Passage}

/-- **The fusion returns passages of its lists.** -/
theorem mem_fuseRrf (h : p ∈ fuseRrf order lexical dense limit) : p ∈ lexical ∨ p ∈ dense := by
  obtain ⟨⟨k, score⟩, -, hk⟩ := List.mem_filterMap.mp h
  simp only [get_foldl_add, List.zipIdx_map_fst, get_nil, Option.none_or] at hk
  rcases Option.or_eq_some_iff.mp hk with hk | ⟨-, hk⟩
  · exact Or.inl (List.mem_of_find?_eq_some hk)
  · exact Or.inr (List.mem_of_find?_eq_some hk)

/-- Alone, and with room for all, every passage of the dense list is returned. -/
theorem mem_fuseRrf_dense (hn : (dense.map Passage.key).Nodup) (hl : dense.length ≤ limit)
    (hp : p ∈ dense) : p ∈ fuseRrf order [] dense limit := by
  refine List.mem_filterMap.mpr ?_
  have hkey : p.key ∈ (dense.zipIdx.foldl Fusion.add ⟨[], []⟩).scores.map Prod.fst := by
    rw [scores_foldl_add, mem_keys_fill]
    right
    rw [show (fun pr : Passage × ℕ => pr.1.key) = Passage.key ∘ Prod.fst from rfl, ← List.map_map,
      List.zipIdx_map_fst]
    exact List.mem_map_of_mem hp
  obtain ⟨⟨k, score⟩, hmem, rfl⟩ := List.mem_map.mp hkey
  refine ⟨(p.key, score), ?_, ?_⟩
  · have hlen : (dense.zipIdx.foldl Fusion.add ⟨[], []⟩).scores.length ≤ dense.length := by
      rw [scores_foldl_add]
      exact (length_fill_le _ _ _ _).trans_eq (by simp)
    rw [List.take_of_length_le, List.mem_mergeSort, (order.perm _).mem_iff]
    · exact hmem
    · rw [List.length_mergeSort, (order.perm _).length_eq]
      exact hlen.trans hl
  · simp only [List.zipIdx_nil, List.foldl_nil, get_foldl_add, List.zipIdx_map_fst, get_nil,
      Option.none_or]
    exact find?_key hn hp

end Fuse

/-! ### The history of an index -/

variable {F : Type}

/-- The tables, and of each note the text it was last indexed and the text it was last embedded from. -/
structure Watched (F : Type) where
  db : Db F
  indexed : Path → Option Text
  embedded : Path → Option Text

namespace Watched

def new : Watched F := ⟨.new, fun _ => none, fun _ => none⟩

/-- One note of a sync. -/
def batch (w : Watched F) : Batch → Watched F
  | .index path content fp =>
    { w with
      db := w.db.execAll (Batch.index path content fp).stmts
      indexed := Function.update w.indexed path (some content) }
  | .prune path =>
    { db := w.db.execAll (Batch.prune path).stmts
      indexed := Function.update w.indexed path none
      embedded := Function.update w.embedded path none }

/-- A complete sync. -/
def sync (w : Watched F) (order : HashOrder Path) (v : Vault) : Watched F :=
  (syncBatches w.db order v.files).foldl batch w

/-- One note of an embedding pass, the file being as it is just then. -/
def embed (w : Watched F) (answer : List Text → Option (List (List F))) (path : Path)
    (file : Option File) : Watched F :=
  match embedNote w.db answer path file with
  | .stored db => { w with db := db, embedded := Function.update w.embedded path (file.bind File.content) }
  | .skipped | .halted => w

end Watched

/-- Between two of these the vault may change at will. -/
inductive Action (F : Type)
  | sync (order : HashOrder Path) (v : Vault)
  | embed (answer : List Text → Option (List (List F))) (path : Path) (file : Option File)

def Watched.step (w : Watched F) : Action F → Watched F
  | .sync order v => w.sync order v
  | .embed answer path file => w.embed answer path file

/-- The index after a history. -/
def after (history : List (Action F)) : Watched F := history.foldl Watched.step .new

/-! ### What the tables hold -/

theorem batch_db (w : Watched F) (b : Batch) : (w.batch b).db = w.db.execAll b.stmts := by
  cases b <;> rfl

theorem sync_db (w : Watched F) (order : HashOrder Path) (v : Vault) :
    (w.sync order v).db = w.db.sync order v.files := by
  unfold Watched.sync Db.sync syncStmts
  generalize syncBatches w.db order v.files = bs
  induction bs generalizing w with
  | nil => rfl
  | cons b bs ih => rw [List.foldl_cons, ih, List.flatMap_cons, execAll_append, batch_db]

/-- The vectors of a note, after a batch. -/
theorem vectors_batch (db : Db F) (b : Batch) (q : Path) :
    (db.execAll b.stmts).vectors q = if b = .prune q then [] else db.vectors q := by
  cases b with
  | index path content fp =>
    rw [if_neg nofun, Batch.stmts, execAll_append, indexFile, execAll_cons, execAll_cons, execAll_nil,
      exec_upsertSource]
    have hins : ∀ (ps : List Passage) (db : Db F),
        (db.execAll (ps.map .insertChunk)).embeddings = db.embeddings := by
      intro ps
      induction ps with
      | nil => exact fun _ => rfl
      | cons p ps ih => exact fun db => ih _
    have hdel : (db.exec (.deleteChunks path)).embeddings = db.embeddings := rfl
    unfold Db.vectors
    split_ifs <;> simp only [Db.updateSource, hins, hdel]
  | prune path =>
    simp only [Batch.stmts, deleteSource, execAll_cons, execAll_nil, Batch.prune.injEq]
    have h := vectors_deleteEmbeddings (db.exec (.deleteChunks path)) path q
    simp only [eq_comm (a := path)]
    exact h

theorem execAll_insertEmbeddings (db : Db F) (es : List (Embedding F)) :
    db.execAll (es.map .insertEmbedding) = { db with embeddings := db.embeddings ++ es } := by
  induction es generalizing db with
  | nil => simp
  | cons e es ih =>
    rw [List.map_cons, execAll_cons, ih]
    simp [Db.exec]

/-- The vectors of a note, after rows of one note are inserted. -/
theorem vectors_append (db : Db F) {path : Path} {es : List (Embedding F)} (h : ∀ e ∈ es, e.passage.path = path)
    (q : Path) : { db with embeddings := db.embeddings ++ es }.vectors q =
      db.vectors q ++ if q = path then es else [] := by
  unfold Db.vectors
  rw [List.filter_append]
  congr 1
  split_ifs with hq
  · refine List.filter_eq_self.mpr fun e he => ?_
    simp [h e he, hq]
  · refine List.filter_eq_nil_iff.mpr fun e he => ?_
    simp [h e he, Ne.symm hq]

/-- What storing the vectors of a note changes. -/
theorem storeEmbeddings_spec (db : Db F) {path : Path} (fp : Fingerprint) {rows : List (Passage × List F)}
    (hrows : ∀ r ∈ rows, r.1.path = path) (q : Path) :
    (db.execAll (storeEmbeddings path fp rows)).rows q = db.rows q ∧
      (db.execAll (storeEmbeddings path fp rows)).known q = db.known q ∧
      ((db.execAll (storeEmbeddings path fp rows)).vectors q).map Embedding.passage =
        if q = path then rows.map Prod.fst else (db.vectors q).map Embedding.passage := by
  obtain ⟨es, hes⟩ : ∃ es, es = rows.zipIdx.map fun x => (⟨x.2, x.1.1, x.1.2⟩ : Embedding F) := ⟨_, rfl⟩
  have hpath : ∀ e ∈ es, e.passage.path = path := by
    intro e he
    obtain ⟨⟨r, i⟩, hr, rfl⟩ := List.mem_map.mp (hes ▸ he)
    exact hrows r (List.fst_mem_of_mem_zipIdx hr)
  have hpassages : es.map Embedding.passage = rows.map Prod.fst := by
    rw [hes, List.map_map]
    rw [show (Embedding.passage ∘ fun x : (Passage × List F) × ℕ => (⟨x.2, x.1.1, x.1.2⟩ : Embedding F)) =
      Prod.fst ∘ Prod.fst from rfl, ← List.map_map, List.zipIdx_map_fst]
  have hstore : db.execAll (storeEmbeddings path fp rows) =
      Db.exec { db.exec (.deleteEmbeddings path) with
        embeddings := (db.exec (.deleteEmbeddings path)).embeddings ++ es } (.stampEmbedded path fp) := by
    have hstmts : storeEmbeddings path fp rows =
        .deleteEmbeddings path :: (es.map .insertEmbedding ++ [.stampEmbedded path fp]) := by
      rw [hes, List.map_map]
      rfl
    rw [hstmts, execAll_cons, execAll_append, execAll_insertEmbeddings, execAll_cons, execAll_nil]
  rw [hstore, rows_stampEmbedded, known_stampEmbedded]
  refine ⟨rfl, rfl, ?_⟩
  have hvectors := vectors_append (db.exec (.deleteEmbeddings path)) hpath q
  rw [vectors_deleteEmbeddings] at hvectors
  calc _ = ((if q = path then [] else db.vectors q) ++ if q = path then es else []).map Embedding.passage :=
        congrArg _ hvectors
    _ = _ := by split_ifs <;> simp [hpassages]

/-! ### The invariant -/

/-- The passages of a text, or none. -/
def passagesOf (path : Path) (content : Option Text) : List Passage := content.elim [] (passages path)

/-- **The passages of a note are of the text it was indexed from, the embedded ones of the text it was
embedded from.** -/
def Inv (w : Watched F) : Prop :=
  ∀ q, w.db.rows q = passagesOf q (w.indexed q) ∧
    (w.db.vectors q).map Embedding.passage = passagesOf q (w.embedded q)

theorem inv_new : Inv (Watched.new (F := F)) := fun _ => ⟨rfl, rfl⟩

theorem inv_batch {w : Watched F} (h : Inv w) (b : Batch) : Inv (w.batch b) := by
  intro q
  obtain ⟨h1, h2⟩ := h q
  rw [batch_db, rows_batch, vectors_batch]
  cases b with
  | index path content fp =>
    rw [if_neg (nofun : ¬ Batch.index path content fp = .prune q)]
    by_cases hq : q = path
    · subst hq
      rw [if_pos (show q = (Batch.index q content fp).path from rfl)]
      simp only [Watched.batch, Function.update_self]
      exact ⟨rfl, h2⟩
    · rw [if_neg (show ¬ q = (Batch.index path content fp).path from hq)]
      simp only [Watched.batch, Function.update_of_ne hq]
      exact ⟨h1, h2⟩
  | prune path =>
    by_cases hq : q = path
    · subst hq
      rw [if_pos (show q = (Batch.prune q).path from rfl), if_pos rfl]
      simp only [Watched.batch, Function.update_self]
      exact ⟨rfl, rfl⟩
    · rw [if_neg (show ¬ q = (Batch.prune path).path from hq), if_neg fun h => hq (by injection h with h; exact h.symm)]
      simp only [Watched.batch, Function.update_of_ne hq]
      exact ⟨h1, h2⟩

theorem inv_sync {w : Watched F} (h : Inv w) (order : HashOrder Path) (v : Vault) :
    Inv (w.sync order v) := by
  unfold Watched.sync
  generalize syncBatches w.db order v.files = bs
  induction bs generalizing w with
  | nil => exact h
  | cons b bs ih => exact ih (inv_batch h b)

/-- Storing vectors for all passages of a text. -/
theorem inv_store {w : Watched F} (h : Inv w) {path : Path} {fp : Fingerprint} {content : Text}
    {rows : List (Passage × List F)} (hrows : rows.map Prod.fst = passages path content) :
    Inv { w with
      db := w.db.execAll (storeEmbeddings path fp rows)
      embedded := Function.update w.embedded path (some content) } := by
  intro q
  have hp : ∀ r ∈ rows, r.1.path = path := by
    intro r hr
    have hmem : r.1 ∈ passages path content := hrows ▸ List.mem_map_of_mem hr
    exact path_of_mem_passages _ hmem
  obtain ⟨h1, -, h2⟩ := storeEmbeddings_spec w.db fp hp q
  dsimp only
  rw [h1, h2, hrows]
  by_cases hq : q = path
  · subst hq
    rw [if_pos rfl, Function.update_self]
    exact ⟨(h q).1, rfl⟩
  · rw [if_neg hq, Function.update_of_ne hq]
    exact h q

theorem inv_embed {w : Watched F} (h : Inv w) (answer : List Text → Option (List (List F))) (path : Path)
    (file : Option File) : Inv (w.embed answer path file) := by
  unfold Watched.embed embedNote
  cases hr : readAndChunk path file with
  | none => exact h
  | some r =>
    obtain ⟨fp, chunks⟩ := r
    obtain ⟨content, hfile, rfl⟩ : ∃ content, file.bind File.content = some content ∧
        chunks = passages path content := by
      simp only [readAndChunk, Option.bind_eq_bind, Option.bind_eq_some_iff, Option.some.injEq,
        Prod.mk.injEq] at hr
      obtain ⟨f, rfl, _, _, content, hc, -, rfl⟩ := hr
      exact ⟨content, hc, rfl⟩
    rw [hfile]
    by_cases hnil : passages path content = []
    · simp only [hnil, if_true]
      exact inv_store h (by simp [hnil])
    · simp only [hnil, if_false]
      cases ha : answer ((passages path content).map Passage.body) with
      | none => exact h
      | some vectors =>
        by_cases hlen : vectors.length = (passages path content).length
        · simp only [hlen, if_true]
          exact inv_store h (List.map_fst_zip hlen.ge)
        · simp only [hlen, if_false]
          exact h

/-- **Every history keeps the invariant.** -/
theorem inv_after (history : List (Action F)) : Inv (after history) := by
  unfold after
  generalize hw : (Watched.new : Watched F) = w
  have h : Inv w := hw ▸ inv_new
  clear hw
  induction history generalizing w with
  | nil => exact h
  | cons a history ih =>
    refine ih _ ?_
    cases a with
    | sync order v => exact inv_sync h order v
    | embed answer path file => exact inv_embed h answer path file

/-! ### The text just indexed -/

section Indexed
variable {w : Watched F} {bs : List Batch} {path : Path}

/-- The text a batch indexes its note from. -/
def indexedOf : Batch → Option Text
  | .index _ content _ => some content
  | .prune _ => none

theorem batch_indexed (w : Watched F) (b : Batch) :
    (w.batch b).indexed = Function.update w.indexed b.path (indexedOf b) := by
  cases b <;> rfl

theorem indexed_other (h : path ∉ bs.map Batch.path) :
    (bs.foldl Watched.batch w).indexed path = w.indexed path := by
  induction bs generalizing w with
  | nil => rfl
  | cons b bs ih =>
    rw [List.map_cons, List.mem_cons, not_or] at h
    rw [List.foldl_cons, ih h.2, batch_indexed, Function.update_of_ne h.1]

theorem indexed_own (hn : (bs.map Batch.path).Nodup) {b : Batch} (hb : b ∈ bs) :
    (bs.foldl Watched.batch w).indexed b.path = indexedOf b := by
  induction bs generalizing w with
  | nil => simp at hb
  | cons c bs ih =>
    rw [List.map_cons, List.nodup_cons] at hn
    rw [List.foldl_cons]
    rcases List.mem_cons.mp hb with rfl | hb
    · rw [indexed_other hn.1, batch_indexed, Function.update_self]
    · exact ih hn.2 hb

/-- A sync indexes a readable note of another fingerprint from the text it has now. -/
theorem indexed_sync (order : HashOrder Path) (v : Vault) {file : File} (hf : (path, file) ∈ v.files)
    {fp : Fingerprint} {content : Text} (hfp : file.fingerprint = some fp)
    (hc : file.content = some content) (hk : w.db.known path ≠ some fp) :
    (w.sync order v).indexed path = some content := by
  have hb : Batch.index path content fp ∈ syncBatches w.db order v.files := by
    refine List.mem_append_left _ (List.mem_filterMap.mpr ⟨_, hf, ?_⟩)
    simp [indexBatch, hfp, hc, hk]
  exact indexed_own (nodup_syncBatches w.db order v.nodup) hb

/-- A note known and gone is indexed no more. -/
theorem indexed_sync_removed (order : HashOrder Path) (v : Vault) (hp : path ∉ v.files.map Prod.fst)
    (hk : (w.db.known path).isSome) : (w.sync order v).indexed path = none := by
  have hb : Batch.prune path ∈ syncBatches w.db order v.files :=
    List.mem_append_right _ (List.mem_map.mpr ⟨path, (mem_removed w.db order).mpr ⟨hk, hp⟩, rfl⟩)
  exact indexed_own (nodup_syncBatches w.db order v.nodup) hb

end Indexed

/-! ### What a search returns -/

/-- The passage is one of the text its note was last indexed from. -/
def IsCurrent (w : Watched F) (p : Passage) : Prop := p ∈ passagesOf p.path (w.indexed p.path)

/-- **Every note was last embedded from the text last indexed; or its passages found by some vector are
in that text too.** -/
def UpToDate (S : Similarity F) (w : Watched F) : Prop :=
  ∀ path old, w.embedded path = some old → w.indexed path = some old ∨
    ∀ e ∈ w.db.vectors path, (∃ v, S.signal v e.vector = true) → IsCurrent w e.passage

section Search
variable {w : Watched F}

theorem mem_rows {p : Passage} (h : p ∈ w.db.chunks) : p ∈ w.db.rows p.path :=
  List.mem_filter.mpr ⟨h, by simp⟩

theorem mem_vectors {e : Embedding F} (h : e ∈ w.db.embeddings) : e ∈ w.db.vectors e.passage.path :=
  List.mem_filter.mpr ⟨h, by simp⟩

/-- The passages embedded have different keys. -/
theorem nodup_keys (h : Inv w) : (w.db.embeddings.map fun e => e.passage.key).Nodup := by
  have hpath : ∀ q, ((w.db.vectors q).map fun e => e.passage.key).Nodup := by
    intro q
    have hk : (passagesOf q (w.embedded q)).map Passage.key =
        ((w.db.vectors q).map fun e => e.passage.key) := by
      rw [← (h q).2, List.map_map]
      rfl
    rw [← hk]
    cases w.embedded q with
    | none => simp [passagesOf]
    | some old =>
      have hs := Chunker.chunk_start_lines old Chunker.defaultChunkChars
      rw [passagesOf, Option.elim_some, passages, List.map_map]
      refine List.Nodup.of_map Prod.snd ?_
      rwa [List.map_map]
  unfold Db.vectors at hpath
  generalize w.db.embeddings = es at hpath
  induction es with
  | nil => simp
  | cons e es ih =>
    have hsub : ∀ q, ((es.filter (·.passage.path = q)).map fun e => e.passage.key).Nodup := by
      intro q
      refine (hpath q).sublist (List.Sublist.map _ ?_)
      exact (List.sublist_cons_self e es).filter _
    rw [List.map_cons, List.nodup_cons]
    refine ⟨fun hmem => ?_, ih hsub⟩
    obtain ⟨e', he', hkey⟩ := List.mem_map.mp hmem
    -- a passage of the same key is of the same note
    have hq : e'.passage.path = e.passage.path := congrArg Prod.fst hkey
    have hn := hpath e.passage.path
    rw [List.filter_cons_of_pos (by simp), List.map_cons, List.nodup_cons] at hn
    exact hn.1 (hkey ▸ List.mem_map_of_mem (List.mem_filter.mpr ⟨he', by simpa using hq⟩))

/-- The empty query has no words. -/
theorem toFtsQuery_nil (L : Letters) : toFtsQuery L [] = [] := by
  have ht : Chunker.trim [] = [] := rfl
  simp [toFtsQuery, ftsTokens, ht, L.toLowercase_nil, Notely.Lib.Utf8.encode]

/-- A passage embedded with a vector that has a signal is returned for that signal alone. -/
theorem mem_retrieveHybrid (h : Inv w) (s : Searcher F) {e : Embedding F} (he : e ∈ w.db.embeddings)
    {v : List F} (hv : s.similarity.signal v e.vector = true) :
    e.passage ∈ retrieveHybrid s w.db [] w.db.embeddings.length (some v) := by
  have hperm := s.similarity.perm v (w.db.embeddings.filter fun r => s.similarity.signal v r.vector)
  have hlen : (s.similarity.rank v (w.db.embeddings.filter fun r =>
      s.similarity.signal v r.vector)).length ≤ w.db.embeddings.length := by
    rw [hperm.length_eq]
    exact List.length_filter_le _ _
  have hmem : e.passage ∈ vectorSearch s.similarity w.db v w.db.embeddings.length := by
    refine List.mem_map_of_mem ?_
    rw [List.take_of_length_le hlen, hperm.mem_iff]
    exact List.mem_filter.mpr ⟨he, hv⟩
  have hnodup : ((vectorSearch s.similarity w.db v w.db.embeddings.length).map Passage.key).Nodup := by
    rw [vectorSearch, List.take_of_length_le hlen, List.map_map, (hperm.map _).nodup_iff]
    exact (nodup_keys h).sublist (List.Sublist.map _ List.filter_sublist)
  have hne : v ≠ [] := s.similarity.signal_nonempty v _ hv
  have hlength : (vectorSearch s.similarity w.db v w.db.embeddings.length).length ≤
      w.db.embeddings.length := by
    rw [vectorSearch, List.length_map, List.take_of_length_le hlen]
    exact hlen
  simp only [retrieveHybrid, toFtsQuery_nil, if_true, hne, if_false]
  rw [if_neg (List.ne_nil_of_mem hmem)]
  exact mem_fuseRrf_dense hnodup hlength hmem

/-- What a search returns is in one of the two tables, found there. -/
theorem of_mem_retrieveHybrid {s : Searcher F} {query : Text} {limit : ℕ} {qv : Option (List F)}
    {p : Passage} (hp : p ∈ retrieveHybrid s w.db query limit qv) :
    p ∈ w.db.chunks ∨ ∃ e ∈ w.db.embeddings, e.passage = p ∧ ∃ v, s.similarity.signal v e.vector = true := by
  have hlex : ∀ {p}, p ∈ (if toFtsQuery s.letters query = [] then []
      else s.fts.search (toFtsQuery s.letters query) limit w.db.chunks) → p ∈ w.db.chunks := by
    intro p hp
    split_ifs at hp
    · simp at hp
    · exact s.fts.subset _ _ _ p hp
  have hdense : ∀ v, p ∈ vectorSearch s.similarity w.db v limit →
      ∃ e ∈ w.db.embeddings, e.passage = p ∧ ∃ v, s.similarity.signal v e.vector = true := by
    intro v hp
    obtain ⟨e, he, rfl⟩ := List.mem_map.mp hp
    have hmem := (s.similarity.perm v _).mem_iff.mp (List.mem_of_mem_take he)
    obtain ⟨h1, h2⟩ := List.mem_filter.mp hmem
    exact ⟨e, h1, rfl, v, h2⟩
  unfold retrieveHybrid at hp
  simp only at hp
  cases qv with
  | none =>
    rw [if_pos rfl] at hp
    exact Or.inl (hlex hp)
  | some v =>
    simp only at hp
    by_cases hv : v = []
    · rw [if_pos hv, if_pos rfl] at hp
      exact Or.inl (hlex hp)
    · rw [if_neg hv] at hp
      by_cases hd : vectorSearch s.similarity w.db v limit = []
      · rw [if_pos hd] at hp
        exact Or.inl (hlex hp)
      · rw [if_neg hd] at hp
        rcases mem_fuseRrf hp with hp | hp
        · exact Or.inl (hlex hp)
        · exact Or.inr (hdense v hp)

end Search

/-- What a search may return after any history. -/
theorem current_iff {w : Watched F} (h : Inv w) (s : Searcher F) :
    (∀ query limit qv, ∀ p ∈ retrieveHybrid s w.db query limit qv, IsCurrent w p) ↔
      UpToDate s.similarity w := by
  constructor
  · intro hall path old _
    right
    rintro e he ⟨v, hv⟩
    exact hall _ _ _ _ (mem_retrieveHybrid h s (List.mem_of_mem_filter he) hv)
  · intro hup query limit qv p hp
    rcases of_mem_retrieveHybrid hp with hp | ⟨e, he, rfl, hv⟩
    · unfold IsCurrent
      rw [← (h p.path).1]
      exact mem_rows hp
    · have hmem := mem_vectors he
      have hpass : e.passage ∈ passagesOf e.passage.path (w.embedded e.passage.path) :=
        (h e.passage.path).2 ▸ List.mem_map_of_mem hmem
      cases ho : w.embedded e.passage.path with
      | none => simp [ho, passagesOf] at hpass
      | some old =>
        rcases hup _ old ho with hi | hall
        · rw [ho] at hpass
          unfold IsCurrent
          rwa [hi]
        · exact hall e hmem hv

/-- **Right after a sync a search returns only passages of the texts just indexed exactly if the embedded
notes are up to date.** -/
theorem passages_current_iff (s : Searcher F) (history : List (Action F)) (order : HashOrder Path)
    (v : Vault) :
    (∀ query limit qv, ∀ p ∈ retrieveHybrid s ((after history).sync order v).db query limit qv,
      IsCurrent ((after history).sync order v) p) ↔
        UpToDate s.similarity ((after history).sync order v) :=
  current_iff (inv_sync (inv_after history) order v) s

/-! ### A note changed after it was embedded -/

/-- Every vector matches; nothing is found by its words. -/
def byVector : Searcher ℕ where
  letters := ⟨fun _ => true, id, rfl⟩
  fts := ⟨fun _ _ _ => [], fun _ _ _ _ h => absurd h List.not_mem_nil⟩
  similarity :=
    { signal := fun query _ => query ≠ []
      rank := fun _ rows => rows
      signal_nonempty := fun _ _ h => of_decide_eq_true h
      perm := fun _ _ => List.Perm.refl _ }
  order := ⟨id, fun _ => List.Perm.refl _⟩

/-- The note is indexed and embedded. -/
def embeddedOnce : List (Action ℕ) :=
  [.sync inOrder (oneNote 1).toVault,
    .embed (fun _ => some [[1]]) note (some ⟨some ⟨some 1, 1⟩, some ['o']⟩)]

theorem passages_of_letter {c : Char} (hc : whiteSpace c = false) (hn : c ≠ '\n') :
    (passages note [c]).map Passage.body = [[c]] := by
  have hlines : Chunker.numberedLines [c] = [(0, [c])] := by
    rw [Chunker.numberedLines, List.splitOn, List.splitOnP_eq_singleton (by simpa using hn)]
    rfl
  have hblank : Chunker.blank (0, [c]) = false := by
    simp [Chunker.blank, Chunker.trim, trimBy, trimEndBy, trimStartBy, hc]
  simp [passages, Chunker.chunkMarkdown, hlines, Chunker.chunkFrom, hblank, Chunker.flush,
    Chunker.toChunk]

theorem indexBatch_ne_prune {db : Db F} {pf : Path × File} {path : Path} :
    indexBatch db pf ≠ some (.prune path) := by
  intro h
  obtain ⟨path', file⟩ := pf
  unfold indexBatch at h
  cases hfp : file.fingerprint with
  | none => simp [hfp] at h
  | some fp =>
    simp only [hfp] at h
    split_ifs at h
    obtain ⟨_, -, he⟩ := Option.map_eq_some_iff.mp h
    exact absurd he nofun

theorem embedded_foldl {w : Watched F} {bs : List Batch} {path : Path} (h : .prune path ∉ bs) :
    (bs.foldl Watched.batch w).embedded path = w.embedded path := by
  induction bs generalizing w with
  | nil => rfl
  | cons b bs ih =>
    rw [List.mem_cons, not_or] at h
    rw [List.foldl_cons, ih h.2]
    cases b with
    | index _ _ _ => rfl
    | prune p =>
      have hne : path ≠ p := fun he => h.1 (he ▸ rfl)
      simp only [Watched.batch, Function.update_of_ne hne]

/-- What the ghosts tell after the note was embedded once. -/
theorem after_embeddedOnce : (after embeddedOnce).db.known note = some ⟨1, 1⟩ ∧
    (after embeddedOnce).embedded note = some ['o'] := by
  have hbody := passages_of_letter (show whiteSpace 'o' = false by decide) (by decide)
  have hne : passages note ['o'] ≠ [] := fun h => by simp [h] at hbody
  have hlen : (passages note ['o']).length = 1 := by
    simpa using congrArg List.length hbody
  have hknown : ((Watched.new : Watched ℕ).sync inOrder (oneNote 1).toVault).db.known note =
      some ⟨1, 1⟩ := by
    rw [sync_db]
    exact (sync_indexed Db.new inOrder (oneNote 1).nodup
      (show (note, (⟨some ⟨some 1, 1⟩, some ['o']⟩ : File)) ∈ (oneNote 1).files from
        List.mem_cons_self) rfl rfl nofun).2
  have hstored : after embeddedOnce = { (Watched.new : Watched ℕ).sync inOrder (oneNote 1).toVault with
      db := ((Watched.new : Watched ℕ).sync inOrder (oneNote 1).toVault).db.execAll
        (storeEmbeddings note ⟨1, 1⟩ ((passages note ['o']).zip [[1]]))
      embedded := Function.update ((Watched.new : Watched ℕ).sync inOrder (oneNote 1).toVault).embedded
        note (some ['o']) } := by
    simp only [after, embeddedOnce, List.foldl_cons, List.foldl_nil, Watched.step, Watched.embed, embedNote,
      readAndChunk, File.fingerprint, Option.bind_eq_bind, Option.bind_some, Option.map_some,
      Option.getD_some, hne, if_false, List.length_singleton, hlen, if_true]
  rw [hstored]
  refine ⟨?_, by dsimp only; rw [Function.update_self]⟩
  rw [← hknown]
  refine (storeEmbeddings_spec _ _ (fun r hr => ?_) _).2.1
  exact path_of_mem_passages _ (List.of_mem_zip (show (r.1, r.2) ∈ _ from hr)).1

/-- **A search returns the old text of a note that was changed after it was embedded.** -/
theorem old_passage_returned : ¬ ∀ (s : Searcher ℕ) (history : List (Action ℕ)) (order : HashOrder Path)
    (v : Vault), ∀ query limit qv, ∀ p ∈ retrieveHybrid s ((after history).sync order v).db query limit qv,
      IsCurrent ((after history).sync order v) p := by
  intro h
  have hinv := inv_sync (inv_after embeddedOnce) inOrder (oneNote 2).toVault
  have hup := (current_iff hinv byVector).mp (h byVector embeddedOnce inOrder (oneNote 2).toVault)
  obtain ⟨hknown, hembedded⟩ := after_embeddedOnce
  have hfile : (note, (⟨some ⟨some 2, 1⟩, some ['n']⟩ : File)) ∈ (oneNote 2).files :=
    List.mem_cons_self
  have hindexed := indexed_sync inOrder (oneNote 2).toVault hfile rfl rfl
    (show (after embeddedOnce).db.known note ≠ some ⟨2, 1⟩ by rw [hknown]; decide)
  generalize hw : (after embeddedOnce).sync inOrder (oneNote 2).toVault = w at hinv hup hindexed
  have hold : w.embedded note = some ['o'] := by
    rw [← hw, Watched.sync, embedded_foldl, hembedded]
    intro hmem
    rcases List.mem_append.mp hmem with hb | hb
    · obtain ⟨⟨p, f⟩, -, hi⟩ := List.mem_filterMap.mp hb
      exact indexBatch_ne_prune hi
    · obtain ⟨p, hp, he⟩ := List.mem_map.mp hb
      injection he with he
      exact ((mem_removed _ _).mp hp).2 (he ▸ List.mem_map_of_mem hfile)
  rcases hup _ _ hold with hi | hall
  · rw [hindexed] at hi
    exact absurd hi (by decide)
  -- the passage with the old text has a vector that is found
  have hbody := passages_of_letter (show whiteSpace 'o' = false by decide) (by decide)
  have hpass := (hinv note).2
  rw [hold, passagesOf, Option.elim_some] at hpass
  have hvec : ((w.db.vectors note).map Embedding.passage).map Passage.body = [['o']] := by
    rw [hpass, hbody]
  obtain ⟨e, hrest, he⟩ : ∃ e, w.db.vectors note = [e] ∧ e.passage.body = ['o'] := by
    rw [List.map_map] at hvec
    simpa using hvec
  have hmem : e ∈ w.db.vectors note := hrest ▸ List.mem_cons_self
  have hpath : e.passage.path = note := by simpa using (List.mem_filter.mp hmem).2
  have hcur := hall e hmem ⟨[1], rfl⟩
  unfold IsCurrent at hcur
  rw [hpath, hindexed, passagesOf, Option.elim_some] at hcur
  have hbody' := passages_of_letter (show whiteSpace 'n' = false by decide) (by decide)
  have hn : e.passage.body ∈ (passages note ['n']).map Passage.body := List.mem_map_of_mem hcur
  rw [hbody', he] at hn
  exact absurd hn (by decide)

end Notely.Engine.HybridSearch
