import Notely.Engine.SearchIndex
import Notely.Lib.Batches

/-! # Syncing, and syncing after a crash

A sync is a list of batches, one for each note that is indexed or pruned, all of different notes
(`nodup_syncBatches`); what a batch does to its note is `Batch.rowsOf` and `Batch.knownOf`, and no batch
touches another note. So a complete sync is known note by note (`sync_indexed`, `sync_skipped`,
`sync_removed`), and it keeps the invariant `Agree`: the passages of a note are those of the content with
the fingerprint recorded for it.

A crash in the middle of a batch leaves one note torn. `heals_iff`: the next sync puts it right exactly if
it does not take the note for unchanged, or for never indexed. -/

namespace Notely.Engine.SearchSync

open Notely.Lib.Strings Notely.Lib.Paths Notely.Lib.Batches
open Notely.Engine.VaultFiles Notely.Engine.SearchIndex

variable {F : Type}

/-! ### What a statement changes -/

section Exec
variable (db : Db F) (path q : Path) (fp : Fingerprint) (row : Passage) (e : Embedding F)

theorem filter_ne_eq {β : Type} (g : β → Path) (l : List β) :
    (l.filter (g · ≠ path)).filter (g · = q) = if q = path then [] else l.filter (g · = q) := by
  rw [List.filter_filter]
  by_cases h : q = path
  · subst h
    simp
  · rw [if_neg h]
    refine List.filter_congr fun p _ => ?_
    by_cases hp : g p = q
    · simp [hp, h]
    · simp [hp]

@[simp] theorem rows_deleteChunks :
    (db.exec (.deleteChunks path)).rows q = if q = path then [] else db.rows q :=
  filter_ne_eq path q Passage.path db.chunks

theorem vectors_deleteEmbeddings :
    (db.exec (.deleteEmbeddings path)).vectors q = if q = path then [] else db.vectors q :=
  filter_ne_eq path q (fun e : Embedding F => e.passage.path) db.embeddings

@[simp] theorem rows_insertChunk :
    (db.exec (.insertChunk row)).rows q = db.rows q ++ if row.path = q then [row] else [] := by
  simp [Db.exec, Db.rows, List.filter_append, List.filter_cons]

theorem exec_upsertSource : db.exec (.upsertSource path fp) =
    if (db.source path).isSome then db.updateSource path fun s => { s with fingerprint := fp }
    else { db with sources := db.sources ++ [⟨path, fp, none⟩] } := rfl

@[simp] theorem rows_upsertSource : (db.exec (.upsertSource path fp)).rows q = db.rows q := by
  rw [exec_upsertSource]
  split_ifs <;> rfl

@[simp] theorem rows_deleteEmbeddings : (db.exec (.deleteEmbeddings path)).rows q = db.rows q := rfl
@[simp] theorem rows_deleteSource : (db.exec (.deleteSource path)).rows q = db.rows q := rfl
@[simp] theorem rows_insertEmbedding : (db.exec (.insertEmbedding e)).rows q = db.rows q := rfl
@[simp] theorem rows_stampEmbedded : (db.exec (.stampEmbedded path fp)).rows q = db.rows q := rfl

@[simp] theorem known_deleteChunks : (db.exec (.deleteChunks path)).known q = db.known q := rfl
@[simp] theorem known_insertChunk : (db.exec (.insertChunk row)).known q = db.known q := rfl
@[simp] theorem known_deleteEmbeddings : (db.exec (.deleteEmbeddings path)).known q = db.known q := rfl
@[simp] theorem known_insertEmbedding : (db.exec (.insertEmbedding e)).known q = db.known q := rfl

theorem path_of_source {s : Source} (h : db.source q = some s) : s.path = q := by
  simpa using List.find?_some h

/-- A change of the row of one note. -/
theorem source_updateSource (f : Source → Source) (hf : ∀ s, (f s).path = s.path) :
    (db.updateSource path f).source q = if q = path then (db.source q).map f else db.source q := by
  have hc : (fun s : Source => decide (s.path = q)) ∘ (fun s => if s.path = path then f s else s) =
      fun s => decide (s.path = q) := by
    funext s
    simp only [Function.comp_apply]
    split_ifs <;> simp [hf]
  rw [Db.source, Db.updateSource, List.find?_map, hc]
  change Option.map _ (db.source q) = _
  cases hs : db.source q with
  | none => simp
  | some s =>
    have hp := path_of_source db q hs
    by_cases hq : q = path <;> simp [hp, hq]

@[simp] theorem known_upsertSource :
    (db.exec (.upsertSource path fp)).known q = if q = path then some fp else db.known q := by
  rw [exec_upsertSource]
  by_cases hs : (db.source path).isSome
  · rw [if_pos hs, Db.known, source_updateSource db path q (fun s => { s with fingerprint := fp }) fun _ => rfl]
    by_cases hq : q = path
    · subst hq
      obtain ⟨s, hs⟩ := Option.isSome_iff_exists.mp hs
      simp [hs]
    · simp [hq, Db.known]
  · rw [if_neg hs]
    have hnone : db.source path = none := by simpa using hs
    unfold Db.known Db.source
    rw [List.find?_append]
    by_cases hq : q = path
    · subst hq
      simp [show db.sources.find? (·.path = q) = none from hnone]
    · have hq' : ¬ path = q := fun h => hq h.symm
      simp [hq, hq']

@[simp] theorem known_deleteSource :
    (db.exec (.deleteSource path)).known q = if q = path then none else db.known q := by
  unfold Db.exec Db.known Db.source
  by_cases hq : q = path
  · subst hq
    simp [List.find?_filter]
  · rw [if_neg hq, List.find?_filter]
    congr 2
    funext s
    by_cases hs : s.path = q
    · simp [hs, hq]
    · simp [hs]

@[simp] theorem known_stampEmbedded : (db.exec (.stampEmbedded path fp)).known q = db.known q := by
  rw [show db.exec (.stampEmbedded path fp) = db.updateSource path _ from rfl, Db.known,
    source_updateSource db path q (fun s => { s with embeddedFingerprint := some fp }) fun _ => rfl,
    Db.known]
  split_ifs
  · rw [Option.map_map]
    rfl
  · rfl

end Exec

/-! ### What a batch changes -/

@[simp] theorem execAll_cons (db : Db F) (s : Stmt F) (ss : List (Stmt F)) :
    db.execAll (s :: ss) = (db.exec s).execAll ss := rfl

@[simp] theorem execAll_nil (db : Db F) : db.execAll [] = db := rfl

theorem execAll_append (db : Db F) (ss ss' : List (Stmt F)) :
    db.execAll (ss ++ ss') = (db.execAll ss).execAll ss' := List.foldl_append

theorem path_of_mem_passages {path : Path} {content : Text} :
    ∀ p ∈ passages path content, p.path = path := by
  intro p hp
  obtain ⟨ch, -, rfl⟩ := List.mem_map.mp hp
  rfl

/-- Passages of one note inserted. -/
theorem rows_insertChunks {path : Path} {ps : List Passage} (h : ∀ p ∈ ps, p.path = path) (db : Db F)
    (q : Path) : (db.execAll (ps.map .insertChunk)).rows q = db.rows q ++ if q = path then ps else [] := by
  induction ps generalizing db with
  | nil => simp
  | cons p ps ih =>
    have hp : p.path = path := h p (by simp)
    rw [List.map_cons, execAll_cons, ih fun p hp => h p (by simp [hp]), rows_insertChunk, hp]
    by_cases hq : q = path
    · simp [hq]
    · simp [hq, show ¬ path = q from fun h => hq h.symm]

theorem known_insertChunks (ps : List Passage) (db : Db F) (q : Path) :
    (db.execAll (ps.map .insertChunk)).known q = db.known q := by
  induction ps generalizing db with
  | nil => rfl
  | cons p ps ih => rw [List.map_cons, execAll_cons, ih, known_insertChunk]

/-- The passages a batch leaves of its note. -/
def rowsOf : Batch → List Passage
  | .index path content _ => passages path content
  | .prune _ => []

/-- The fingerprint a batch leaves of its note. -/
def knownOf : Batch → Option Fingerprint
  | .index _ _ fp => some fp
  | .prune _ => none

/-- The passages that the first `k` statements of a batch leave of its note. -/
def rowsAfter : Batch → ℕ → List Passage
  | .index path content _, k => (passages path content).take (k - 1)
  | .prune _, _ => []

section Batch
variable (db : Db F) (b : Batch) (q : Path)

theorem rows_batch : (db.execAll b.stmts).rows q = if q = b.path then rowsOf b else db.rows q := by
  cases b with
  | index path content fp =>
    rw [Batch.stmts, execAll_append, indexFile, execAll_cons,
      execAll_cons, execAll_nil, rows_upsertSource, rows_insertChunks path_of_mem_passages,
      rows_deleteChunks]
    by_cases hq : q = path <;> simp [hq, Batch.path, rowsOf]
  | prune path =>
    simp only [Batch.stmts, deleteSource, execAll_cons, execAll_nil, rows_deleteSource,
      rows_deleteEmbeddings, rows_deleteChunks]
    rfl

theorem known_batch : (db.execAll b.stmts).known q = if q = b.path then knownOf b else db.known q := by
  cases b with
  | index path content fp =>
    rw [Batch.stmts, execAll_append, indexFile, execAll_cons,
      execAll_cons, execAll_nil, known_upsertSource, known_insertChunks, known_deleteChunks]
    rfl
  | prune path =>
    simp only [Batch.stmts, deleteSource, execAll_cons, execAll_nil, known_deleteSource,
      known_deleteEmbeddings, known_deleteChunks]
    rfl

/-- A batch cut: its note has lost its passages and got some of the new ones, and its fingerprint is as
it was. -/
theorem cut_batch {k : ℕ} (h0 : 0 < k) (hk : k < (b.stmts (F := F)).length) :
    (db.execAll (b.stmts.take k)).rows q = (if q = b.path then rowsAfter b k else db.rows q) ∧
      (db.execAll (b.stmts.take k)).known q = db.known q := by
  obtain ⟨k, rfl⟩ : ∃ i, k = i + 1 := ⟨k - 1, by omega⟩
  cases b with
  | index path content fp =>
    have hlen : k ≤ ((passages path content).map (Stmt.insertChunk (F := F))).length := by
      simp only [Batch.stmts, indexFile, List.length_append, List.length_cons, List.length_nil] at hk
      omega
    have htake : (Batch.index path content fp).stmts.take (k + 1) =
        .deleteChunks path :: (((passages path content).take k).map (Stmt.insertChunk (F := F))) := by
      rw [Batch.stmts, indexFile, List.cons_append, List.take_succ_cons,
        List.take_append_of_le_length hlen, List.map_take]
    rw [htake, execAll_cons, known_insertChunks, known_deleteChunks,
      rows_insertChunks fun p hp => path_of_mem_passages p (List.mem_of_mem_take hp), rows_deleteChunks]
    by_cases hq : q = path <;> simp [hq, Batch.path, rowsAfter]
  | prune path =>
    simp only [Batch.stmts, deleteSource, List.length_cons, List.length_nil] at hk
    obtain rfl | rfl : k = 0 ∨ k = 1 := by omega
    · exact ⟨rows_deleteChunks db path q, rfl⟩
    · exact ⟨rows_deleteChunks db path q, rfl⟩

/-- Batches leave other notes alone. -/
theorem batches_other {bs : List Batch} (h : q ∉ bs.map Batch.path) :
    (db.execAll (bs.flatMap Batch.stmts)).rows q = db.rows q ∧
      (db.execAll (bs.flatMap Batch.stmts)).known q = db.known q := by
  induction bs generalizing db with
  | nil => exact ⟨rfl, rfl⟩
  | cons b bs ih =>
    rw [List.map_cons, List.mem_cons, not_or] at h
    rw [List.flatMap_cons, execAll_append]
    obtain ⟨h1, h2⟩ := ih (db.execAll b.stmts) h.2
    rw [h1, h2, rows_batch, known_batch, if_neg h.1, if_neg h.1]
    exact ⟨rfl, rfl⟩

/-- A batch among batches of other notes has its effect. -/
theorem batches_own {bs : List Batch} (hn : (bs.map Batch.path).Nodup) {b : Batch} (hb : b ∈ bs) :
    (db.execAll (bs.flatMap Batch.stmts)).rows b.path = rowsOf b ∧
      (db.execAll (bs.flatMap Batch.stmts)).known b.path = knownOf b := by
  induction bs generalizing db with
  | nil => simp at hb
  | cons c bs ih =>
    rw [List.map_cons, List.nodup_cons] at hn
    rw [List.flatMap_cons, execAll_append]
    rcases List.mem_cons.mp hb with rfl | hb
    · obtain ⟨h1, h2⟩ := batches_other (db.execAll b.stmts) b.path hn.1
      rw [h1, h2, rows_batch, known_batch, if_pos rfl, if_pos rfl]
      exact ⟨rfl, rfl⟩
    · exact ih _ hn.2 hb

end Batch

/-! ### A complete sync, note by note -/

section Sync
variable (db : Db F) (order : HashOrder Path) {files : List (Path × File)}

theorem path_of_indexBatch {pf : Path × File} {b : Batch} (h : indexBatch db pf = some b) :
    b.path = pf.1 := by
  obtain ⟨path, file⟩ := pf
  unfold indexBatch at h
  cases hfp : file.fingerprint with
  | none => simp [hfp] at h
  | some fp =>
    simp only [hfp] at h
    split_ifs at h
    obtain ⟨content, -, rfl⟩ := Option.map_eq_some_iff.mp h
    rfl

theorem map_path_filterMap :
    ((files.filterMap (indexBatch db)).map Batch.path).Sublist (files.map Prod.fst) := by
  induction files with
  | nil => simp
  | cons pf files ih =>
    cases hb : indexBatch db pf with
    | none =>
      rw [List.filterMap_cons_none hb, List.map_cons]
      exact ih.cons _
    | some b =>
      rw [List.filterMap_cons_some hb, List.map_cons, List.map_cons, path_of_indexBatch db hb]
      exact ih.cons_cons _

theorem map_path_prune (ps : List Path) : (ps.map Batch.prune).map Batch.path = ps := by
  induction ps with
  | nil => rfl
  | cons p ps ih => rw [List.map_cons, List.map_cons, ih]; rfl

theorem mem_removed {q : Path} :
    q ∈ removed db order files ↔ (db.known q).isSome ∧ q ∉ files.map Prod.fst := by
  rw [removed, List.mem_filter, (order.perm _).mem_iff, List.mem_dedup]
  have hk : q ∈ db.sources.map Source.path ↔ (db.known q).isSome := by
    simp [Db.known, Db.source, List.find?_isSome]
  rw [hk]
  simp

/-- **The batches of a sync are of different notes.** -/
theorem nodup_syncBatches (hn : (files.map Prod.fst).Nodup) :
    ((syncBatches db order files).map Batch.path).Nodup := by
  rw [syncBatches, List.map_append, map_path_prune, List.nodup_append]
  refine ⟨(map_path_filterMap db).nodup hn, ?_, ?_⟩
  · exact ((order.perm _).nodup_iff.mpr (List.nodup_dedup _)).filter _
  · rintro p hp q hq rfl
    exact ((mem_removed db order).mp hq).2 ((map_path_filterMap db).subset hp)

variable (hn : (files.map Prod.fst).Nodup) {path : Path} {file : File} (hf : (path, file) ∈ files)
include hn hf

/-- A note of another fingerprint that can be read is indexed. -/
theorem sync_indexed {fp : Fingerprint} {content : Text} (hfp : file.fingerprint = some fp)
    (hc : file.content = some content) (hk : db.known path ≠ some fp) :
    (db.sync order files).rows path = passages path content ∧
      (db.sync order files).known path = some fp := by
  have hb : Batch.index path content fp ∈ syncBatches db order files := by
    refine List.mem_append_left _ (List.mem_filterMap.mpr ⟨_, hf, ?_⟩)
    simp [indexBatch, hfp, hc, hk]
  exact batches_own db (nodup_syncBatches db order hn) hb

/-- A note whose fingerprint is known, or that cannot be read, is passed over. -/
theorem sync_skipped (h : indexBatch db (path, file) = none) :
    (db.sync order files).rows path = db.rows path ∧ (db.sync order files).known path = db.known path := by
  refine batches_other db path ?_
  rw [syncBatches, List.map_append, map_path_prune, List.mem_append, not_or]
  constructor
  · intro hmem
    obtain ⟨b, hb, hp⟩ := List.mem_map.mp hmem
    obtain ⟨⟨p, f⟩, hpf, hi⟩ := List.mem_filterMap.mp hb
    obtain rfl : p = path := by rw [← hp, path_of_indexBatch db hi]
    obtain rfl : f = file := by
      have := List.inj_on_of_nodup_map hn hpf hf rfl
      exact congrArg Prod.snd this
    simp [h] at hi
  · intro hmem
    exact ((mem_removed db order).mp hmem).2 (List.mem_map_of_mem hf)

end Sync

/-- A note that is not there is pruned, if it is known. -/
theorem sync_removed (db : Db F) (order : HashOrder Path) {files : List (Path × File)}
    (hn : (files.map Prod.fst).Nodup) {path : Path} (hp : path ∉ files.map Prod.fst) :
    ((db.sync order files).rows path = if (db.known path).isSome then [] else db.rows path) ∧
      (db.sync order files).known path = none := by
  cases hk : db.known path with
  | some fp =>
    have hb : Batch.prune path ∈ syncBatches db order files := by
      refine List.mem_append_right _ (List.mem_map.mpr ⟨path, ?_, rfl⟩)
      exact (mem_removed db order).mpr ⟨by simp [hk], hp⟩
    exact batches_own db (nodup_syncBatches db order hn) hb
  | none =>
    have hother : path ∉ (syncBatches db order files).map Batch.path := by
      rw [syncBatches, List.map_append, map_path_prune, List.mem_append, not_or]
      refine ⟨fun h => hp ((map_path_filterMap db).subset h), fun h => ?_⟩
      have := ((mem_removed db order).mp h).1
      simp [hk] at this
    obtain ⟨h1, h2⟩ := batches_other db path hother
    exact ⟨h1, h2.trans hk⟩

/-! ### The invariant of complete syncs -/

/-- A vault whose files hold, under a fingerprint, the content `contents` tells. -/
structure VaultOf (contents : Path → Fingerprint → Text) extends Vault where
  content_eq : ∀ path file, (path, file) ∈ toVault.files → ∀ fp t,
    file.fingerprint = some fp → file.content = some t → t = contents path fp

section Healing
variable {contents : Path → Fingerprint → Text}

/-- The passages a note has, with the fingerprint recorded. -/
def expected (contents : Path → Fingerprint → Text) (path : Path) : Option Fingerprint → List Passage
  | some fp => passages path (contents path fp)
  | none => []

/-- The passages of a note are those of the content with the fingerprint recorded. -/
def AgreeAt (contents : Path → Fingerprint → Text) (db : Db F) (path : Path) : Prop :=
  db.rows path = expected contents path (db.known path)

/-- **The invariant.** -/
def Agree (contents : Path → Fingerprint → Text) (db : Db F) : Prop := ∀ path, AgreeAt contents db path

theorem agree_new : Agree contents (Db.new (F := F)) := fun _ => rfl

/-- A batch of a sync leaves its note right. -/
theorem rowsOf_syncBatches {db : Db F} {order : HashOrder Path} {v : VaultOf contents} {b : Batch}
    (hb : b ∈ syncBatches db order v.files) : rowsOf b = expected contents b.path (knownOf b) := by
  rcases List.mem_append.mp hb with hb | hb
  · obtain ⟨⟨path, file⟩, hpf, hi⟩ := List.mem_filterMap.mp hb
    unfold indexBatch at hi
    cases hfp : file.fingerprint with
    | none => simp [hfp] at hi
    | some fp =>
      simp only [hfp] at hi
      split_ifs at hi
      obtain ⟨t, ht, rfl⟩ := Option.map_eq_some_iff.mp hi
      have := v.content_eq path file hpf fp t hfp ht
      subst this
      rfl
  · obtain ⟨p, -, rfl⟩ := List.mem_map.mp hb
    rfl

/-- Whole batches of a sync keep the invariant. -/
theorem agree_batches {bs : List Batch} (hbs : ∀ b ∈ bs, rowsOf b = expected contents b.path (knownOf b))
    {db : Db F} (h : Agree contents db) : Agree contents (db.execAll (bs.flatMap Batch.stmts)) := by
  induction bs generalizing db with
  | nil => exact h
  | cons b bs ih =>
    rw [List.flatMap_cons, execAll_append]
    refine ih (fun b hb => hbs b (by simp [hb])) fun q => ?_
    unfold AgreeAt
    rw [rows_batch, known_batch]
    by_cases hq : q = b.path
    · rw [if_pos hq, if_pos hq, hq]
      exact hbs b (by simp)
    · rw [if_neg hq, if_neg hq]
      exact h q

/-- **A complete sync keeps it.** -/
theorem agree_sync {db : Db F} (h : Agree contents db) (order : HashOrder Path) (v : VaultOf contents) :
    Agree contents (db.sync order v.files) :=
  agree_batches (fun _ hb => rowsOf_syncBatches hb) h

/-- The tables after some complete syncs. -/
def synced (history : List (HashOrder Path × VaultOf contents)) : Db F :=
  history.foldl (fun db hv => db.sync hv.1 hv.2.files) .new

theorem agree_synced (history : List (HashOrder Path × VaultOf contents)) :
    Agree contents (synced history (F := F)) := by
  unfold synced
  generalize hdb : (Db.new : Db F) = db
  have h : Agree contents db := hdb ▸ agree_new
  clear hdb
  induction history generalizing db with
  | nil => exact h
  | cons hv history ih => exact ih _ (agree_sync h hv.1 hv.2)

/-! ### What a sync heals -/

/-- The notes that can be read have exactly their passages, and those that are not there none. -/
def Healed (v : VaultOf contents) (db : Db F) : Prop :=
  (∀ path file, (path, file) ∈ v.files → ∀ fp t, file.fingerprint = some fp → file.content = some t →
    db.rows path = passages path t) ∧
  ∀ path, path ∉ v.files.map Prod.fst → db.rows path = []

/-- A sync puts a note right, unless it takes it for unchanged, or for never indexed. -/
def MendsAt (v : VaultOf contents) (path : Path) (known : Option Fingerprint) (rows : List Passage) : Prop :=
  (∀ file, (path, file) ∈ v.files → ∀ fp t, file.fingerprint = some fp → file.content = some t →
    known = some fp → rows = passages path t) ∧
  (path ∉ v.files.map Prod.fst → known = none → rows = [])

theorem healed_sync_iff (v : VaultOf contents) (order : HashOrder Path) (db : Db F) :
    Healed v (db.sync order v.files) ↔ ∀ path, MendsAt v path (db.known path) (db.rows path) := by
  constructor
  · rintro ⟨h1, h2⟩ path
    refine ⟨fun file hf fp t hfp ht hk => ?_, fun hp hk => ?_⟩
    · have hskip : indexBatch db (path, file) = none := by simp [indexBatch, hfp, hk]
      rw [← (sync_skipped db order v.nodup hf hskip).1]
      exact h1 path file hf fp t hfp ht
    · have := h2 path hp
      rwa [(sync_removed db order v.nodup hp).1, hk, if_neg (by simp)] at this
  · intro h
    refine ⟨fun path file hf fp t hfp ht => ?_, fun path hp => ?_⟩
    · by_cases hk : db.known path = some fp
      · have hskip : indexBatch db (path, file) = none := by simp [indexBatch, hfp, hk]
        rw [(sync_skipped db order v.nodup hf hskip).1]
        exact (h path).1 file hf fp t hfp ht hk
      · exact (sync_indexed db order v.nodup hf hfp ht hk).1
    · rw [(sync_removed db order v.nodup hp).1]
      split_ifs with hk
      · rfl
      · exact (h path).2 hp (by simpa using hk)

/-- A note whose passages agree with what is recorded is put right. -/
theorem mendsAt_of_agree {v : VaultOf contents} {db : Db F} {path : Path} (h : AgreeAt contents db path) :
    MendsAt v path (db.known path) (db.rows path) := by
  unfold AgreeAt at h
  refine ⟨fun file hf fp t hfp ht hk => ?_, fun _ hk => ?_⟩
  · rw [h, hk, v.content_eq path file hf fp t hfp ht]
    rfl
  · rw [h, hk]
    rfl

/-! ### A sync cut anywhere -/

/-- The tables after the first `n` statements of a sync. -/
def interrupted (db : Db F) (order : HashOrder Path) (v : VaultOf contents) (n : ℕ) : Db F :=
  db.execAll ((syncStmts db order v.files).take n)

/-- The note whose batch is cut, if one is, is put right by the next sync. -/
def Mends (db : Db F) (v : VaultOf contents) : Option (Batch × ℕ) → Prop
  | none => True
  | some (b, k) => MendsAt v b.path (db.known b.path) (rowsAfter b k)

/-- What the next sync makes of tables that agreed before the sync that was cut. -/
theorem healed_interrupted_iff {db : Db F} (hagree : Agree contents db) (order order' : HashOrder Path)
    (v v' : VaultOf contents) (n : ℕ) :
    Healed v' ((interrupted db order v n).sync order' v'.files) ↔
      Mends db v' (cutAt (Batch.stmts (F := F)) (syncBatches db order v.files) n) := by
  rw [healed_sync_iff]
  have hnodup := nodup_syncBatches db order v.nodup
  have hright : ∀ b ∈ syncBatches db order v.files, rowsOf b = expected contents b.path (knownOf b) :=
    fun _ hb => rowsOf_syncBatches hb
  rcases take_cases (Batch.stmts (F := F)) (syncBatches db order v.files) n with
    ⟨front, back, hbs, hcut, htake⟩ | ⟨front, b, back, k, hbs, hcut, h0, hk, htake⟩
  · rw [hcut]
    refine iff_of_true (fun path => mendsAt_of_agree ?_) trivial
    rw [interrupted, syncStmts, htake]
    exact agree_batches (fun b hb => hright b (by simp [hbs, hb])) hagree path
  · rw [hcut, interrupted, syncStmts, htake, execAll_append]
    have hfront : Agree contents (db.execAll (front.flatMap Batch.stmts)) :=
      agree_batches (fun b hb => hright b (by simp [hbs, hb])) hagree
    -- the batches before the cut are of other notes
    have hother : b.path ∉ front.map Batch.path := by
      rw [hbs, List.map_append, List.map_cons, List.nodup_append] at hnodup
      exact fun hm => hnodup.2.2 _ hm _ List.mem_cons_self rfl
    have hkn := (batches_other db b.path hother).2
    constructor
    · intro h
      have hb := h b.path
      rw [(cut_batch _ b b.path h0 hk).1, (cut_batch _ b b.path h0 hk).2, if_pos rfl, hkn] at hb
      exact hb
    · intro h path
      rw [(cut_batch _ b path h0 hk).1, (cut_batch _ b path h0 hk).2]
      by_cases hp : path = b.path
      · rw [if_pos hp, hp, hkn]
        exact h
      · rw [if_neg hp]
        exact mendsAt_of_agree (hfront path)

end Healing

/-- **After a crash the next sync heals the index exactly if it puts the note cut right.** -/
theorem heals_iff (contents : Path → Fingerprint → Text)
    (history : List (HashOrder Path × VaultOf contents)) (order order' : HashOrder Path)
    (v v' : VaultOf contents) (n : ℕ) :
    Healed v' ((interrupted (synced history (F := F)) order v n).sync order' v'.files) ↔
      Mends (synced history (F := F)) v'
        (cutAt (Batch.stmts (F := F)) (syncBatches (synced history (F := F)) order v.files) n) :=
  healed_interrupted_iff (agree_synced history) order order' v v' n

/-! ### A note restored -/

/-- The order in which the rows are stored. -/
def inOrder : HashOrder Path := ⟨id, fun l => List.Perm.refl l⟩

/-- The old text, and the new one that has another time of change. -/
def oldOrNew (_ : Path) (fp : Fingerprint) : Text := if fp.modified = 1 then ['o'] else ['n']

/-- The path of the one note. -/
def note : Path := ["a.md".toList]

/-- A vault with one note, of the given time of change. -/
def oneNote (time : ℕ) : VaultOf oldOrNew where
  root := []
  entries := [.file "a.md".toList ⟨some ⟨some time, 1⟩, some (if time = 1 then ['o'] else ['n'])⟩]
  names := ⟨trivial, trivial, by simp⟩
  content_eq path file hf fp t hfp ht := by
    obtain ⟨rfl, rfl⟩ := Prod.mk.injEq _ _ _ _ ▸ List.mem_singleton.mp hf
    obtain rfl := Option.some.inj hfp
    obtain rfl := Option.some.inj ht
    rfl

theorem passages_old : passages note ['o'] ≠ [] := by
  have hlines : Chunker.numberedLines ['o'] = [(0, ['o'])] := rfl
  have hblank : Chunker.blank (0, ['o']) = false := by decide
  simp [passages, Chunker.chunkMarkdown, hlines, Chunker.chunkFrom, hblank, Chunker.flush]

/-- **A note changed, its new passages cut off by a crash, and the note restored**: the next sync takes it
for unchanged and leaves it without passages. -/
theorem restored_not_healed : ¬ ∀ (contents : Path → Fingerprint → Text)
    (history : List (HashOrder Path × VaultOf contents)) (order order' : HashOrder Path)
    (v v' : VaultOf contents) (n : ℕ),
    Healed v' ((interrupted (synced history (F := Unit)) order v n).sync order' v'.files) := by
  intro h
  have h := h oldOrNew [(inOrder, oneNote 1)] inOrder inOrder (oneNote 2) (oneNote 1) 1
  rw [healed_interrupted_iff (agree_synced _)] at h
  have hknown : (synced [(inOrder, oneNote 1)] : Db Unit).known note = some ⟨1, 1⟩ :=
    (sync_indexed Db.new inOrder (oneNote 1).nodup
      (show (note, (⟨some ⟨some 1, 1⟩, some ['o']⟩ : File)) ∈ (oneNote 1).files from
        List.mem_cons_self) rfl rfl nofun).2
  generalize (synced [(inOrder, oneNote 1)] : Db Unit) = db at h hknown
  have hbatch : indexBatch db (note, ⟨some ⟨some 2, 1⟩, some ['n']⟩) =
      some (.index note ['n'] ⟨2, 1⟩) := by
    have hne : ¬ (some (⟨1, 1⟩ : Fingerprint) = some ⟨2, 1⟩) := by decide
    simp only [indexBatch, File.fingerprint, Option.map_some, Option.getD_some, hknown, if_neg hne]
  have hcut : cutAt (Batch.stmts (F := Unit)) (syncBatches db inOrder (oneNote 2).files) 1 =
      some (.index note ['n'] ⟨2, 1⟩, 1) := by
    have hfiles : (oneNote 2).files = [(note, ⟨some ⟨some 2, 1⟩, some ['n']⟩)] := rfl
    rw [syncBatches, hfiles, List.filterMap_cons_some hbatch, List.cons_append, cutAt, if_neg (by simp),
      if_pos (by simp [Batch.stmts, indexFile])]
  rw [hcut] at h
  have hrows := h.1 ⟨some ⟨some 1, 1⟩, some ['o']⟩ List.mem_cons_self ⟨1, 1⟩ ['o'] rfl rfl hknown
  exact passages_old hrows.symm

end Notely.Engine.SearchSync
