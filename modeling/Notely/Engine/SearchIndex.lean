import Notely.Engine.Chunker
import Notely.Engine.VaultFiles
import Notely.Lib.Table
import Mathlib.Data.Rat.Defs
import Mathlib.Data.List.Dedup

/-! # The search index

`search/index.rs`: three tables, the passages (`chunks`), the notes indexed (`sources`) and the passages'
vectors (`embeddings`), and the functions that bring them in line with the vault and search them. What
changes the tables is a list of SQL statements, so that a crash can be put between any two.

Parameters stand for what is not the program's own: the order in which a hash map is walked (`HashOrder`),
which rows a full-text query finds (`Fts`), which vectors have a positive cosine and how they are ranked
(`Similarity`), the letters of Unicode (`Letters`), and the embedding model. Scores of the rank fusion are
exact rationals. -/

namespace Notely.Engine.SearchIndex

open Notely.Lib.Strings Notely.Lib.Paths Notely.Lib.Table Notely.Engine.VaultFiles Notely.Engine.Chunker
open Notely.Lib.Utf8 (encode)

/-! ### Tables -/

/-- `Passage`, and a row of `chunks`. -/
structure Passage where
  path : Path
  title : Text
  startLine : ℕ
  endLine : ℕ
  body : Text
  deriving DecidableEq, Repr

/-- A row of `sources`. -/
structure Source where
  path : Path
  fingerprint : Fingerprint
  embeddedFingerprint : Option Fingerprint
  deriving DecidableEq, Repr

/-- A row of `embeddings`. -/
structure Embedding (F : Type) where
  chunkIx : ℕ
  passage : Passage
  vector : List F
  deriving DecidableEq, Repr

structure Db (F : Type) where
  chunks : List Passage
  sources : List Source
  embeddings : List (Embedding F)
  deriving DecidableEq, Repr

variable {F : Type}

/-- The tables just created. -/
def Db.new : Db F := ⟨[], [], []⟩

/-- The rows of `chunks` of a note. -/
def Db.rows (db : Db F) (path : Path) : List Passage := db.chunks.filter (·.path = path)

/-- The rows of `embeddings` of a note. -/
def Db.vectors (db : Db F) (path : Path) : List (Embedding F) :=
  db.embeddings.filter (·.passage.path = path)

/-- The row of `sources` of a note. -/
def Db.source (db : Db F) (path : Path) : Option Source := db.sources.find? (·.path = path)

/-- `known.get(path)`. -/
def Db.known (db : Db F) (path : Path) : Option Fingerprint := (db.source path).map Source.fingerprint

/-- The row of `sources` of a note changed. -/
def Db.updateSource (db : Db F) (path : Path) (f : Source → Source) : Db F :=
  { db with sources := db.sources.map fun s => if s.path = path then f s else s }

/-! ### Statements -/

inductive Stmt (F : Type)
  | deleteChunks (path : Path)
  | insertChunk (row : Passage)
  | upsertSource (path : Path) (fingerprint : Fingerprint)
  | deleteEmbeddings (path : Path)
  | deleteSource (path : Path)
  | insertEmbedding (row : Embedding F)
  | stampEmbedded (path : Path) (fingerprint : Fingerprint)

def Db.exec (db : Db F) : Stmt F → Db F
  | .deleteChunks path => { db with chunks := db.chunks.filter (·.path ≠ path) }
  | .insertChunk row => { db with chunks := db.chunks ++ [row] }
  | .upsertSource path fp =>
    if (db.source path).isSome then db.updateSource path fun s => { s with fingerprint := fp }
    else { db with sources := db.sources ++ [⟨path, fp, none⟩] }
  | .deleteEmbeddings path => { db with embeddings := db.embeddings.filter (·.passage.path ≠ path) }
  | .deleteSource path => { db with sources := db.sources.filter (·.path ≠ path) }
  | .insertEmbedding row => { db with embeddings := db.embeddings ++ [row] }
  | .stampEmbedded path fp => db.updateSource path fun s => { s with embeddedFingerprint := some fp }

/-- Some statements, one after the other. -/
def Db.execAll (db : Db F) (stmts : List (Stmt F)) : Db F := stmts.foldl Db.exec db

/-! ### Indexing -/

/-- The passages of a note. -/
def passages (path : Path) (content : Text) : List Passage :=
  (chunkMarkdown content defaultChunkChars).map fun ch =>
    ⟨path, (firstHeading content).getD (fileStem path), ch.startLine, ch.endLine, ch.text⟩

/-- `index_file`. -/
def indexFile (path : Path) (content : Text) : List (Stmt F) :=
  .deleteChunks path :: (passages path content).map .insertChunk

/-- `delete_source`. -/
def deleteSource (path : Path) : List (Stmt F) :=
  [.deleteChunks path, .deleteEmbeddings path, .deleteSource path]

/-- What `sync_vault_blocking` does to one note. -/
inductive Batch
  | index (path : Path) (content : Text) (fingerprint : Fingerprint)
  | prune (path : Path)
  deriving DecidableEq, Repr

def Batch.path : Batch → Path
  | .index path _ _ => path
  | .prune path => path

def Batch.stmts : Batch → List (Stmt F)
  | .index path content fp => indexFile path content ++ [.upsertSource path fp]
  | .prune path => deleteSource path

/-- The order in which a hash map gives its entries. -/
structure HashOrder (α : Type) where
  shuffle : List α → List α
  perm : ∀ l, (shuffle l).Perm l

/-- The note is to be indexed: its fingerprint is not the one known, and it can be read. -/
def indexBatch (db : Db F) : Path × File → Option Batch
  | (path, file) =>
    match file.fingerprint with
    | none => none
    | some fp => if db.known path = some fp then none else file.content.map (.index path · fp)

/-- The notes known that are not present, in the order of the map. -/
def removed (db : Db F) (order : HashOrder Path) (files : List (Path × File)) : List Path :=
  (order.shuffle (db.sources.map Source.path).dedup).filter (· ∉ files.map Prod.fst)

/-- The notes `sync_vault_blocking` indexes and prunes. -/
def syncBatches (db : Db F) (order : HashOrder Path) (files : List (Path × File)) : List Batch :=
  files.filterMap (indexBatch db) ++ (removed db order files).map .prune

/-- The statements of `sync_vault_blocking`. -/
def syncStmts (db : Db F) (order : HashOrder Path) (files : List (Path × File)) : List (Stmt F) :=
  (syncBatches db order files).flatMap Batch.stmts

/-- `sync_vault_blocking`. -/
def Db.sync (db : Db F) (order : HashOrder Path) (files : List (Path × File)) : Db F :=
  db.execAll (syncStmts db order files)

/-- `SyncStats`. -/
structure SyncStats where
  added : ℕ
  updated : ℕ
  removed : ℕ
  unchanged : ℕ
  deriving DecidableEq, Repr

/-- What `sync_vault_blocking` returns. -/
def syncStats (db : Db F) (order : HashOrder Path) (files : List (Path × File)) : SyncStats where
  added := (files.filterMap (indexBatch db)).countP fun b => (db.known b.path).isNone
  updated := (files.filterMap (indexBatch db)).countP fun b => (db.known b.path).isSome
  removed := (removed db order files).length
  unchanged := files.countP fun (path, file) =>
    file.fingerprint.isSome && decide (db.known path = file.fingerprint)

/-! ### Embedding -/

/-- `pending_paths_blocking`. -/
def pendingPaths (db : Db F) : List Path :=
  (db.sources.filter fun s => s.embeddedFingerprint ≠ some s.fingerprint).map Source.path

/-- `read_and_chunk`, of a file that may be gone. -/
def readAndChunk (path : Path) (file : Option File) : Option (Fingerprint × List Passage) := do
  let file ← file
  let fp ← file.fingerprint
  let content ← file.content
  some (fp, passages path content)

/-- `store_embeddings_blocking`. -/
def storeEmbeddings (path : Path) (fp : Fingerprint) (rows : List (Passage × List F)) : List (Stmt F) :=
  .deleteEmbeddings path :: rows.zipIdx.map (fun ((p, v), ix) => .insertEmbedding ⟨ix, p, v⟩) ++
    [.stampEmbedded path fp]

/-- How the pass goes on after a note. -/
inductive Embedded (F : Type)
  | stored (db : Db F)
  | skipped
  | halted

/-- One note of `embed_pending`: `embed` answers with vectors, or not at all. -/
def embedNote (db : Db F) (embed : List Text → Option (List (List F))) (path : Path)
    (file : Option File) : Embedded F :=
  match readAndChunk path file with
  | none => .skipped
  | some (fp, chunks) =>
    if chunks = [] then .stored (db.execAll (storeEmbeddings path fp []))
    else
      match embed (chunks.map Passage.body) with
      | none => .halted
      | some vectors =>
        if vectors.length = chunks.length then
          .stored (db.execAll (storeEmbeddings path fp (chunks.zip vectors)))
        else .skipped

/-- The loop of `embed_pending`. -/
def embedLoop (embed : List Text → Option (List (List F))) (disk : Path → Option File) :
    List Path → Db F → ℕ → Db F × ℕ
  | [], db, embedded => (db, embedded)
  | path :: paths, db, embedded =>
    match embedNote db embed path (disk path) with
    | .stored db => embedLoop embed disk paths db (embedded + 1)
    | .skipped => embedLoop embed disk paths db embedded
    | .halted => (db, embedded)

/-- `embed_pending`. -/
def embedPending (db : Db F) (embed : List Text → Option (List (List F))) (disk : Path → Option File) :
    Db F × ℕ :=
  embedLoop embed disk (pendingPaths db) db 0

/-! ### Searching -/

/-- The letters and digits, and lower case. -/
structure Letters where
  isAlphanumeric : Char → Bool
  toLowercase : Text → Text
  toLowercase_nil : toLowercase [] = []

/-- The tokens of `to_fts_query`, given those seen before. -/
def ftsTokens (L : Letters) : List Text → List Text → List Text
  | _, [] => []
  | seen, raw :: raws =>
    let t := L.toLowercase (trim raw)
    if (encode t).length < 2 then ftsTokens L seen raws
    else if t ∈ seen then ftsTokens L seen raws
    else (t ++ ['*']) :: ftsTokens L (t :: seen) raws

/-- `to_fts_query`. -/
def toFtsQuery (L : Letters) (query : Text) : Text :=
  " OR ".toList.intercalate (ftsTokens L [] (query.splitOnP (! L.isAlphanumeric ·)))

/-- `SELECT … WHERE chunks MATCH ?1 ORDER BY score LIMIT ?2`. -/
structure Fts where
  search : Text → ℕ → List Passage → List Passage
  subset : ∀ query limit rows, ∀ p ∈ search query limit rows, p ∈ rows

/-- The vectors that have a signal for a query, and the rows in the order of their scores. -/
structure Similarity (F : Type) where
  signal : List F → List F → Bool
  rank : List F → List (Embedding F) → List (Embedding F)
  signal_nonempty : ∀ query v, signal query v = true → query ≠ []
  perm : ∀ query rows, (rank query rows).Perm rows

/-- `vector_search_blocking`. -/
def vectorSearch (S : Similarity F) (db : Db F) (query : List F) (limit : ℕ) : List Passage :=
  ((S.rank query (db.embeddings.filter fun r => S.signal query r.vector)).take limit).map
    Embedding.passage

/-- What identifies a passage for the fusion. -/
abbrev Key := Path × ℕ

def Passage.key (p : Passage) : Key := (p.path, p.startLine)

/-- `scores` and `passages`. -/
structure Fusion where
  scores : List (Key × ℚ)
  passages : List (Key × Passage)

/-- One passage of one list, at its rank. -/
def Fusion.add (f : Fusion) : Passage × ℕ → Fusion
  | (p, rank) =>
    { scores := upsert (fun old => old.getD 0 + 1 / (60 + rank + 1)) p.key f.scores
      passages := upsert (fun old => old.getD p) p.key f.passages }

/-- `fuse_rrf`. -/
def fuseRrf (order : HashOrder (Key × ℚ)) (lexical dense : List Passage) (limit : ℕ) : List Passage :=
  let fused := dense.zipIdx.foldl Fusion.add (lexical.zipIdx.foldl Fusion.add ⟨[], []⟩)
  let ranked := (order.shuffle fused.scores).mergeSort fun a b => decide (b.2 ≤ a.2)
  (ranked.take limit).filterMap fun (key, _) => get key fused.passages

/-- What a search depends on beside the tables. -/
structure Searcher (F : Type) where
  letters : Letters
  fts : Fts
  similarity : Similarity F
  order : HashOrder (Key × ℚ)

/-- `retrieve_hybrid`. -/
def retrieveHybrid (s : Searcher F) (db : Db F) (query : Text) (limit : ℕ)
    (queryVector : Option (List F)) : List Passage :=
  let matchQuery := toFtsQuery s.letters query
  let lexical := if matchQuery = [] then [] else s.fts.search matchQuery limit db.chunks
  let dense := match queryVector with
    | some v => if v = [] then [] else vectorSearch s.similarity db v limit
    | none => []
  if dense = [] then lexical else fuseRrf s.order lexical dense limit

end Notely.Engine.SearchIndex
