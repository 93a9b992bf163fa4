import Notely.Engine.EmbeddingLockstep

/-! # Which model made the vectors

A pass embeds with the model configured, a query is embedded with the model configured, and the tables do
not say which model a vector is of: a note is pending by its fingerprints alone. The engine is configured
when it starts, so the model changes with a restart, which takes the pass with it and leaves the tables.
The ghost `maker` tells with which model the rows of a note were last stored; a store replaces them all.

* `settled_sync`: a note not pending after a sync was not pending before, or the sync takes it back to the
  version it was embedded from.
* `one_model_iff`: all along a run the vectors found for a query are of the model that embeds the queries
  exactly if every restart and every note taken back finds them so. -/

namespace Notely.Engine.EmbeddingModels

open Notely.Lib.Strings Notely.Lib.Paths Notely.Lib.Lts
open Notely.Engine.VaultFiles Notely.Engine.SearchIndex Notely.Engine.SearchSync Notely.Engine.EmbeddingPasses
open Notely.Engine.HybridSearch (byVector indexBatch_ne_prune)
open Notely.Engine.EmbeddingLockstep (stamp stamp_kept stamp_stampEmbedded)

variable {F M : Type}

/-! ### Notes that are not pending -/

/-- The note is indexed, and was embedded as it is indexed. -/
def Settled (db : Db F) (path : Path) : Prop :=
  ∃ src, db.source path = some src ∧ src.embeddedFingerprint = some src.fingerprint

/-- A sync of the vault takes the note back: it is pending, and its file is again as it was embedded. -/
def TakenBack (db : Db F) (v : Vault) (path : Path) : Prop :=
  ∃ src, db.source path = some src ∧ src.embeddedFingerprint ≠ some src.fingerprint ∧
    ∃ file, (path, file) ∈ v.files ∧ file.content.isSome ∧
      ∃ fp, file.fingerprint = some fp ∧ src.embeddedFingerprint = some fp

section Sync
variable {db : Db F} {order : HashOrder Path} {v : Vault} {path : Path}

theorem settled_iff : Settled db path ↔ ∃ fp, stamp db path = some fp ∧ db.known path = some fp := by
  unfold Settled stamp Db.known
  constructor
  · rintro ⟨src, hsrc, hfp⟩
    exact ⟨src.fingerprint, by simp [hsrc, hfp], by simp [hsrc]⟩
  · rintro ⟨fp, hstamp, hknown⟩
    obtain ⟨src, hsrc, rfl⟩ := Option.map_eq_some_iff.mp hknown
    exact ⟨src, hsrc, by simpa [hsrc] using hstamp⟩

theorem kept_batches {bs : List Batch} (db : Db F) (h : Batch.prune path ∉ bs) :
    stamp (db.execAll (bs.flatMap Batch.stmts)) path = stamp db path ∧
      (db.execAll (bs.flatMap Batch.stmts)).vectors path = db.vectors path := by
  induction bs generalizing db with
  | nil => exact ⟨rfl, rfl⟩
  | cons b bs ih =>
    rw [List.mem_cons, not_or] at h
    obtain ⟨hstamp, hvectors⟩ := stamp_kept db path (Ne.symm h.1)
    rw [List.flatMap_cons, execAll_append, (ih _ h.2).1, (ih _ h.2).2]
    exact ⟨hstamp, hvectors⟩

/-- A sync leaves the stamp and the vectors of a note whose file is there. -/
theorem kept_sync (db : Db F) (order : HashOrder Path) (hf : path ∈ v.files.map Prod.fst) :
    stamp (db.sync order v.files) path = stamp db path ∧
      (db.sync order v.files).vectors path = db.vectors path := by
  refine kept_batches db fun hmem => ?_
  rcases List.mem_append.mp hmem with hmem | hmem
  · obtain ⟨pf, -, hb⟩ := List.mem_filterMap.mp hmem
    exact indexBatch_ne_prune hb
  · obtain ⟨q, hq, hb⟩ := List.mem_map.mp hmem
    injection hb with hb
    exact ((mem_removed db order).mp (hb ▸ hq)).2 hf

/-- After a sync a note that is not pending has its file. -/
theorem file_of_settled (h : Settled (db.sync order v.files) path) : path ∈ v.files.map Prod.fst := by
  by_contra hf
  obtain ⟨fp, -, hknown⟩ := settled_iff.mp h
  have hnone := (sync_removed db order v.nodup hf).2
  exact absurd (hknown.symm.trans hnone) nofun

/-- **A note that is not pending after a sync was not before, or the sync takes it back.** -/
theorem settled_sync (h : Settled (db.sync order v.files) path) : Settled db path ∨ TakenBack db v path := by
  have hf := file_of_settled h
  obtain ⟨fp, hstamp, hknown⟩ := settled_iff.mp h
  rw [(kept_sync db order hf).1] at hstamp
  obtain ⟨⟨p, file⟩, hmem, rfl⟩ := List.mem_map.mp hf
  by_cases hold : db.known p = some fp
  · exact Or.inl (settled_iff.mpr ⟨fp, hstamp, hold⟩)
  · obtain ⟨src, hsrc, hemb⟩ := Option.bind_eq_some_iff.mp hstamp
    have hne : src.embeddedFingerprint ≠ some src.fingerprint := by
      intro heq
      have hfp : fp = src.fingerprint := Option.some.inj (hemb.symm.trans heq)
      exact hold (by simp [Db.known, hsrc, hfp])
    -- the sync has indexed the note, with this fingerprint
    cases hb : indexBatch db (p, file) with
    | none =>
      rw [(sync_skipped db order v.nodup hmem hb).2] at hknown
      exact absurd hknown hold
    | some b =>
      unfold indexBatch at hb
      cases hfp : file.fingerprint with
      | none => simp [hfp] at hb
      | some fp' =>
        simp only [hfp] at hb
        split_ifs at hb with hk
        obtain ⟨content, hc, -⟩ := Option.map_eq_some_iff.mp hb
        have hnew := (sync_indexed db order v.nodup hmem hfp hc hk).2
        have hfp' : fp' = fp := Option.some.inj (hnew.symm.trans hknown)
        exact Or.inr ⟨src, hsrc, hne, file, hmem, by simp [hc], fp, hfp' ▸ hfp, hemb⟩

/-- A note taken back is no longer pending. -/
theorem settled_of_takenBack (order : HashOrder Path) (h : TakenBack db v path) :
    Settled (db.sync order v.files) path ∧ (db.sync order v.files).vectors path = db.vectors path := by
  obtain ⟨src, hsrc, hne, file, hmem, hcontent, fp, hfp, hemb⟩ := h
  obtain ⟨content, hc⟩ := Option.isSome_iff_exists.mp hcontent
  obtain ⟨hstamp, hvectors⟩ := kept_sync db order (List.mem_map_of_mem (f := Prod.fst) hmem)
  have hk : db.known path ≠ some fp := by
    intro hk
    have hsame : src.fingerprint = fp := by simpa [Db.known, hsrc] using hk
    exact hne (hsame ▸ hemb)
  refine ⟨settled_iff.mpr ⟨fp, ?_, (sync_indexed db order v.nodup hmem hfp hc hk).2⟩, hvectors⟩
  rw [hstamp]
  simp [stamp, hsrc, hemb]

end Sync

/-! ### The engine over its restarts -/

/-- The indexer, the embedding model configured, and the model that made the rows of each note. -/
structure Configured (F M : Type) where
  ix : Indexer F
  model : Option M
  maker : Path → Option M

inductive Action (F M : Type)
  | indexer (a : EmbeddingPasses.Action F)
  /-- The engine stops, at any moment, and starts with a configuration. -/
  | restart (model : Option M)

/-- A store replaces the rows of its note, unless it fails at once. -/
def makerAfter (c : Configured F M) : EmbeddingPasses.Action F → Path → Option M
  | .store vectors fails =>
    match c.ix.pass with
    | some ⟨_, some h⟩ =>
      match replyFor h.chunks vectors with
      | .rows _ => if fails = some 0 then c.maker else Function.update c.maker h.path c.model
      | _ => c.maker
    | _ => c.maker
  | _ => c.maker

/-- `maybe_spawn_embedding` starts no pass without a model. -/
def canDo (model : Option M) : EmbeddingPasses.Action F → Bool
  | .start => model.isSome
  | _ => true

def Configured.step (c : Configured F M) : Action F M → Option (Configured F M)
  | .indexer a =>
    if canDo c.model a then (c.ix.step a).map fun ix => ⟨ix, c.model, makerAfter c a⟩ else none
  | .restart model => some { c with ix := { c.ix with pass := none }, model := model }

/-- An empty index over some files. -/
def start (disk : Path → Option File) (model : Option M) : Configured F M := ⟨.new disk, model, fun _ => none⟩

section Models
variable (S : Similarity F) (Makes : M → List F → Prop)

/-- The vectors of a note that have a signal for a query vector of a model were made by it. -/
def MadeBy (m : M) (c : Configured F M) (path : Path) : Prop :=
  ∀ query, Makes m query → ∀ e ∈ c.ix.db.vectors path, S.signal query e.vector = true → c.maker path = some m

/-- **Every vector that has a signal for a query vector of the model configured, and is of a note not
pending, was made by that model.** -/
def OneModel (c : Configured F M) : Prop :=
  ∀ m ∈ c.model, ∀ query, Makes m query → ∀ e ∈ c.ix.db.embeddings, S.signal query e.vector = true →
    Settled c.ix.db e.passage.path → c.maker e.passage.path = some m

/-- **A restart finds the notes that are not pending, and a sync those it takes back, with vectors of the
model configured.** -/
def FindsOwn (c : Configured F M) : Action F M → Prop
  | .restart model => ∀ m ∈ model, ∀ path, Settled c.ix.db path → MadeBy S Makes m c path
  | .indexer (.sync _ v) => ∀ m ∈ c.model, ∀ path, TakenBack c.ix.db v path → MadeBy S Makes m c path
  | _ => True

end Models

/-! ### The run -/

section Run
variable {S : Similarity F} {Makes : M → List F → Prop} {c c' : Configured F M}

theorem mem_embeddings {db : Db F} {path : Path} {e : Embedding F} :
    e ∈ db.vectors path ↔ e ∈ db.embeddings ∧ e.passage.path = path := by simp [Db.vectors]

/-- Note by note. -/
theorem oneModel_iff : OneModel S Makes c ↔
    ∀ m ∈ c.model, ∀ path, Settled c.ix.db path → MadeBy S Makes m c path := by
  constructor
  · intro h m hm path hset query hq e he hsig
    obtain ⟨hmem, rfl⟩ := mem_embeddings.mp he
    exact h m hm query hq e hmem hsig hset
  · intro h m hm query hq e he hsig hset
    exact h m hm e.passage.path hset query hq e (mem_embeddings.mpr ⟨he, rfl⟩) hsig

/-- What a step of the indexer does here. -/
theorem step_indexer {a : EmbeddingPasses.Action F} (hs : c.step (.indexer a) = some c') :
    c.ix.step a = some c'.ix ∧ c'.model = c.model ∧ c'.maker = makerAfter c a := by
  simp only [Configured.step, Option.ite_none_right_eq_some] at hs
  obtain ⟨ix, hix, rfl⟩ := Option.map_eq_some_iff.mp hs.2
  exact ⟨hix, rfl, rfl⟩

/-- **What a step of the indexer changes**: nothing; or it syncs; or it stores rows of one note. -/
theorem indexer_cases {a : EmbeddingPasses.Action F} (ho : OwnChunks c.ix) (hs : c.step (.indexer a) = some c') :
    (c'.ix.db = c.ix.db ∧ c'.maker = c.maker) ∨
    (∃ order v, a = .sync order v ∧ c'.ix.db = c.ix.db.sync order v.files ∧ c'.maker = c.maker) ∨
    ∃ path, c'.maker = Function.update c.maker path c.model ∧ ∀ q, q ≠ path →
      c'.ix.db.vectors q = c.ix.db.vectors q ∧ (Settled c'.ix.db q → Settled c.ix.db q) := by
  obtain ⟨hix, -, hmaker⟩ := step_indexer hs
  cases a with
  | store vectors fails =>
    obtain ⟨rest, h, hp, ⟨-, hdb, -, hno⟩ | ⟨rows, hr, hst⟩⟩ := step_store hix
    · refine Or.inl ⟨hdb, ?_⟩
      simp only [makerAfter, hp] at hmaker
      exact hmaker
    · simp only [makerAfter, hp, hr] at hmaker
      have hpath : ∀ e ∈ inserted rows fails, e.passage.path = h.path := path_of_inserted ho hp hr
      have hother : ∀ q, q ≠ h.path →
          (replaceRows c.ix.db h.path (inserted rows fails)).vectors q = c.ix.db.vectors q := by
        intro q hq
        rw [vectors_replaceRows _ hpath, if_neg hq]
      rcases (stored_cases hst).2 with ⟨rfl, hdb, -⟩ | ⟨k, rfl, -, -, hdb⟩ | ⟨rfl, -, hdb⟩
      · exact Or.inl ⟨hdb, hmaker⟩
      · refine Or.inr (Or.inr ⟨h.path, by simpa using hmaker, fun q hq => ?_⟩)
        rw [hdb]
        exact ⟨hother q hq, id⟩
      · refine Or.inr (Or.inr ⟨h.path, by simpa using hmaker, fun q hq => ?_⟩)
        rw [hdb]
        refine ⟨hother q hq, fun hset => ?_⟩
        obtain ⟨fp, hstamp, hknown⟩ := settled_iff.mp hset
        rw [stamp_stampEmbedded, if_neg hq] at hstamp
        rw [known_stampEmbedded] at hknown
        exact settled_iff.mpr ⟨fp, hstamp, hknown⟩
  | sync order v =>
    simp only [Indexer.step, Option.ite_none_right_eq_some, Option.some.injEq] at hix
    exact Or.inr (Or.inl ⟨order, v, rfl, by rw [← hix.2], hmaker⟩)
  | edit path file => exact Or.inl ⟨(step_db hix).resolve_right (by simp), hmaker⟩
  | start => exact Or.inl ⟨(step_db hix).resolve_right (by simp), hmaker⟩
  | read => exact Or.inl ⟨(step_db hix).resolve_right (by simp), hmaker⟩
  | finish => exact Or.inl ⟨(step_db hix).resolve_right (by simp), hmaker⟩

/-- The vectors are of one model, and a pass holds passages of its note. -/
structure Inv (S : Similarity F) (Makes : M → List F → Prop) (c : Configured F M) : Prop where
  one : OneModel S Makes c
  own : OwnChunks c.ix

theorem inv_start (disk : Path → Option File) (model : Option M) : Inv S Makes (start disk model) where
  one := fun _ _ _ _ _ he => absurd he List.not_mem_nil
  own := nofun

/-- **The step lemma.** -/
theorem inv_step {a : Action F M} (hi : Inv S Makes c) (hok : FindsOwn S Makes c a) (hs : c.step a = some c') :
    Inv S Makes c' := by
  cases a with
  | restart model =>
    cases hs
    exact ⟨oneModel_iff.mpr hok, nofun⟩
  | indexer a =>
    obtain ⟨hix, hmodel, -⟩ := step_indexer hs
    refine ⟨oneModel_iff.mpr fun m hm path hset => ?_, ownChunks_step hi.own hix⟩
    rw [hmodel] at hm
    have hone := oneModel_iff.mp hi.one m hm path
    rcases indexer_cases hi.own hs with ⟨hdb, hmaker⟩ | ⟨order, v, rfl, hdb, hmaker⟩ | ⟨p, hmaker, hother⟩
    · unfold MadeBy
      rw [hdb] at hset ⊢
      rw [hmaker]
      exact hone hset
    · rw [hdb] at hset
      have hv := (kept_sync c.ix.db order (file_of_settled hset)).2
      unfold MadeBy
      rw [hdb, hv, hmaker]
      rcases settled_sync hset with hold | hback
      · exact hone hold
      · exact hok m hm path hback
    · by_cases hp : path = p
      · -- the rows just stored
        subst hp
        intro _ _ _ _ _
        rw [hmaker, Function.update_self]
        exact hm
      · obtain ⟨hv, hset'⟩ := hother path hp
        unfold MadeBy
        rw [hv, hmaker, Function.update_of_ne hp]
        exact hone (hset' hset)

/-- A restart, or a sync, that does not find its own vectors leaves those of another model to be compared. -/
theorem mixed_step {a : Action F M} (hok : ¬ FindsOwn S Makes c a) (hs : c.step a = some c') :
    ¬ OneModel S Makes c' := by
  intro hone
  cases a with
  | restart model =>
    cases hs
    exact hok (oneModel_iff.mp hone)
  | indexer a =>
    cases a with
    | sync order v =>
      refine hok fun m hm path hback => ?_
      obtain ⟨hix, hmodel, hmaker⟩ := step_indexer hs
      simp only [Indexer.step, Option.ite_none_right_eq_some, Option.some.injEq] at hix
      obtain ⟨hset, hv⟩ := settled_of_takenBack order hback
      have hmade := oneModel_iff.mp hone m (hmodel ▸ hm) path (by rwa [← hix.2])
      unfold MadeBy at hmade
      rwa [← hix.2, hv, hmaker] at hmade
    | _ => exact hok trivial

end Run

/-- **All along a run the vectors found for a query are of the model that embeds the queries exactly if every
restart finds the notes that are not pending, and every sync those it takes back, with vectors of the model
configured.** -/
theorem one_model_iff (S : Similarity F) (Makes : M → List F → Prop) (disk : Path → Option File)
    (model : Option M) (as : List (Action F M)) (c : Configured F M)
    (hr : run Configured.step (start disk model) as = some c) :
    Always Configured.step (OneModel S Makes) (start disk model) as ↔
      Along Configured.step (FindsOwn S Makes) (start disk model) as :=
  always_iff_along (fun _ hi => hi.one) (fun _ _ _ => inv_step) (fun _ _ _ _ => mixed_step) (inv_start disk model) hr

/-! ### Another model -/

/-- Any query but the empty one. -/
def asked (_ : ℕ) (query : List ℕ) : Prop := query ≠ []

/-- The note is indexed, read and embedded with the first model. -/
def embedded : List (Action ℕ ℕ) := readOnce.map .indexer ++ [.indexer (.store (some [[1]]) none)]

/-- What the index holds then. -/
def embeddedDb (p : Passage) : Db ℕ := ⟨passages note ['o'], [⟨note, ⟨1, 1⟩, some ⟨1, 1⟩⟩], [⟨0, p, [1]⟩]⟩

/-- The engine then. -/
def embeddedOnce (p : Passage) : Configured ℕ ℕ :=
  ⟨⟨letterDisk 1 'o', embeddedDb p, some ⟨[], none⟩⟩, some 0, Function.update (fun _ => none) note (some 0)⟩

theorem run_embedded {p : Passage} (hp : passages note ['o'] = [p]) :
    run Configured.step (start (letterDisk 1 'o') (some 0)) embedded = some (embeddedOnce p) := by
  have hreply : replyFor (passages note ['o']) (some [[1]]) = .rows [(p, [1])] := by
    rw [hp]
    rfl
  have hread : run Configured.step (start (letterDisk 1 'o') (some 0)) (readOnce.map (.indexer (M := ℕ))) = some
      ⟨⟨letterDisk 1 'o', letterDb 1 'o', some ⟨[], some ⟨note, ⟨1, 1⟩, passages note ['o']⟩⟩⟩, some 0,
        fun _ => none⟩ := by
    simp only [readOnce, List.map_cons, List.map_nil, run, Configured.step, start, Indexer.step, Indexer.new,
      sync_letter]
    rfl
  rw [embedded, run_append, hread]
  simp only [Option.bind_some, run, Configured.step, Indexer.step, hreply, makerAfter, Indexer.stored]
  rfl

/-- A new index takes no note back. -/
theorem not_takenBack_new {v : Vault} {path : Path} : ¬ TakenBack (Db.new : Db F) v path := nofun

theorem along_embedded :
    Along Configured.step (FindsOwn byVector.similarity asked) (start (letterDisk 1 'o') (some 0)) embedded := by
  refine ⟨fun _ _ _ hback => absurd hback not_takenBack_new, ?_⟩
  cases Configured.step _ _ with
  | none => trivial
  | some c => exact along_of_forall (by simp [FindsOwn]) c

/-- Restarted with the same model, the engine finds its own vectors. -/
theorem one_model_again : Always Configured.step (OneModel byVector.similarity asked)
    (start (letterDisk 1 'o') (some 0)) (embedded ++ [.restart (some 0)]) := by
  obtain ⟨p, hp⟩ := passages_letter (show whiteSpace 'o' = false by decide) (by decide)
  have hpath : p.path = note := path_of_mem_passages p (hp ▸ List.mem_singleton_self p)
  have hrun : run Configured.step (start (letterDisk 1 'o') (some 0)) (embedded ++ [.restart (some 0)]) =
      some { embeddedOnce p with ix := { (embeddedOnce p).ix with pass := none } } := by
    rw [run_append, run_embedded hp]
    rfl
  have hfinds : FindsOwn byVector.similarity asked (embeddedOnce p) (.restart (some 0)) := by
    rintro _ ⟨⟩ path - query - e he -
    obtain ⟨hmem, rfl⟩ := mem_embeddings.mp he
    obtain rfl := List.mem_singleton.mp hmem
    rw [hpath]
    simp [embeddedOnce]
  refine (one_model_iff _ _ _ _ _ _ hrun).mpr (along_append along_embedded fun c hc => ?_)
  obtain rfl := Option.some.inj ((run_embedded hp).symm.trans hc)
  exact ⟨hfinds, trivial⟩

/-- **Restarted with another model, the engine compares its query vectors with those of the first.** -/
theorem models_mixed : ¬ ∀ (S : Similarity ℕ) (Makes : ℕ → List ℕ → Prop) (disk : Path → Option File)
    (model : Option ℕ) (as : List (Action ℕ ℕ)) (c : Configured ℕ ℕ),
    run Configured.step (start disk model) as = some c →
      Always Configured.step (OneModel S Makes) (start disk model) as := by
  intro h
  obtain ⟨p, hp⟩ := passages_letter (show whiteSpace 'o' = false by decide) (by decide)
  have hpath : p.path = note := path_of_mem_passages p (hp ▸ List.mem_singleton_self p)
  have hrun : run Configured.step (start (letterDisk 1 'o') (some 0)) (embedded ++ [.restart (some 1)]) =
      some ⟨{ (embeddedOnce p).ix with pass := none }, some 1, (embeddedOnce p).maker⟩ := by
    rw [run_append, run_embedded hp]
    rfl
  have hset : Settled (embeddedDb p) p.path := by
    rw [hpath]
    exact ⟨_, rfl, rfl⟩
  have hone := (h byVector.similarity asked _ _ _ _ hrun).last hrun
  have hmaker := hone 1 rfl [1] (by simp [asked]) ⟨0, p, [1]⟩ (List.mem_singleton_self _) rfl hset
  simp [embeddedOnce, hpath] at hmaker

end Notely.Engine.EmbeddingModels
