import Notely.Engine.EmbeddingPasses

/-! # Embeddings stamped with the current fingerprint are current

A note is no longer pending once `embedded_fingerprint` is its fingerprint, so a stamp has to say that the
note's rows are those of the text it had then. Every version of a file has a fingerprint of its own, and the
ghost `used` records those a path has had: a stamp that is not the current fingerprint never becomes it.

* `source_batch`: the row of `sources` of a note after a batch.
* `Inv`: a stamp that is the current fingerprint comes with the rows of the current text.
* `embeddings_lockstep`: that holds along every run in which no store fails halfway for a note that has the stamp it
  was to get. -/

namespace Notely.Engine.EmbeddingLockstep

open Notely.Lib.Strings Notely.Lib.Paths Notely.Lib.Lts
open Notely.Engine.VaultFiles Notely.Engine.SearchIndex Notely.Engine.SearchSync Notely.Engine.EmbeddingPasses
open Notely.Engine.HybridSearch (vectors_batch)

variable {F : Type}

/-! ### Stamps -/

/-- The fingerprint a note was embedded with. -/
def stamp (db : Db F) (path : Path) : Option Fingerprint := (db.source path).bind Source.embeddedFingerprint

section Stamp
variable (db : Db F) (path q : Path) (fp : Fingerprint)

theorem source_deleteSource :
    (db.exec (.deleteSource path)).source q = if q = path then none else db.source q := by
  unfold Db.exec Db.source
  rw [List.find?_filter]
  by_cases hq : q = path
  · subst hq
    rw [if_pos rfl, List.find?_eq_none]
    intro s _
    simp
  · rw [if_neg hq]
    congr 1
    funext s
    by_cases hs : s.path = q
    · simp [hs, hq]
    · simp [hs]

theorem source_upsertSource : (db.exec (.upsertSource path fp)).source q =
    if q = path then some ⟨path, fp, stamp db path⟩ else db.source q := by
  rw [exec_upsertSource]
  unfold stamp
  by_cases hs : (db.source path).isSome
  · rw [if_pos hs, source_updateSource db path q (fun s => { s with fingerprint := fp }) fun _ => rfl]
    by_cases hq : q = path
    · subst hq
      obtain ⟨s, hs⟩ := Option.isSome_iff_exists.mp hs
      have hp : s.path = q := path_of_source db q hs
      rw [if_pos rfl, if_pos rfl, hs, Option.map_some, Option.bind_some, hp]
    · rw [if_neg hq, if_neg hq]
  · rw [if_neg hs]
    have hnone : db.source path = none := by simpa using hs
    rw [hnone]
    unfold Db.source at hnone ⊢
    rw [List.find?_append]
    by_cases hq : q = path
    · subst hq
      simp [hnone]
    · have hq' : ¬ path = q := fun h => hq h.symm
      simp [hq, hq']

/-- **The row of `sources` of a note after a batch.** -/
theorem source_batch (b : Batch) : (db.execAll b.stmts).source q =
    if q = b.path then (knownOf b).map fun fp => ⟨q, fp, stamp db q⟩ else db.source q := by
  cases b with
  | index path content fp =>
    rw [execAll_index, source_upsertSource]
    by_cases hq : q = path
    · subst hq
      rw [if_pos rfl, if_pos (show q = (Batch.index q content fp).path from rfl)]
      rfl
    · rw [if_neg hq, if_neg (show ¬ q = (Batch.index path content fp).path from hq)]
      rfl
  | prune path =>
    simp only [Batch.stmts, deleteSource, execAll_cons, execAll_nil]
    rw [source_deleteSource]
    rfl

/-- Unless it prunes the note, a batch leaves its stamp and its vectors. -/
theorem stamp_kept {b : Batch} (h : b ≠ .prune q) :
    stamp (db.execAll b.stmts) q = stamp db q ∧ (db.execAll b.stmts).vectors q = db.vectors q := by
  rw [vectors_batch, if_neg h]
  refine ⟨?_, rfl⟩
  unfold stamp
  rw [source_batch]
  split_ifs with hq
  · cases b with
    | index path content fp => rfl
    | prune path => exact absurd (hq ▸ rfl) h
  · rfl

/-- What a batch leaves stamped was stamped before, and keeps its rows. -/
theorem stamp_batch {b : Batch} (h : stamp (db.execAll b.stmts) q = some fp) :
    stamp db q = some fp ∧ (db.execAll b.stmts).vectors q = db.vectors q := by
  by_cases hb : b = .prune q
  · subst hb
    unfold stamp at h
    rw [source_batch, if_pos (show q = (Batch.prune q).path from rfl)] at h
    exact absurd h nofun
  · obtain ⟨hstamp, hvectors⟩ := stamp_kept db q hb
    exact ⟨hstamp ▸ h, hvectors⟩

theorem stamp_stampEmbedded : stamp (db.exec (.stampEmbedded path fp)) q =
    if q = path then (db.source path).map (fun _ => fp) else stamp db q := by
  unfold stamp
  rw [show db.exec (.stampEmbedded path fp) = db.updateSource path _ from rfl,
    source_updateSource db path q (fun s => { s with embeddedFingerprint := some fp }) fun _ => rfl]
  by_cases hq : q = path
  · subst hq
    cases db.source q <;> simp
  · rw [if_neg hq, if_neg hq]

end Stamp

/-! ### Versions of a file -/

/-- The indexer, and the fingerprints each path has had. -/
structure Followed (F : Type) where
  ix : Indexer F
  used : Path → List Fingerprint

/-- The fingerprint of a file, if it is there. -/
def fingerprintAt (disk : Path → Option File) (path : Path) : Option Fingerprint :=
  (disk path).bind File.fingerprint

/-- The text of a file, if it is there and can be read. -/
def contentAt (disk : Path → Option File) (path : Path) : Option Text := (disk path).bind File.content

def usedAfter (used : Path → List Fingerprint) : Action F → Path → List Fingerprint
  | .edit path (some file) => Function.update used path (file.fingerprint.toList ++ used path)
  | _ => used

def Followed.step (f : Followed F) (a : Action F) : Option (Followed F) :=
  (f.ix.step a).map fun ix => ⟨ix, usedAfter f.used a⟩

/-- An empty index over some files. -/
def start (disk : Path → Option File) : Followed F := ⟨.new disk, fun p => (fingerprintAt disk p).toList⟩

/-! ### The claim and its condition -/

/-- The rows of a note are the passages of a text, in their order. -/
def Embeds (db : Db F) (path : Path) (content : Text) : Prop :=
  (db.vectors path).map (fun e => (e.passage, e.chunkIx)) = (passages path content).zipIdx

/-- The rows of a note are those of the text it has now. -/
def Current (ix : Indexer F) (path : Path) : Prop :=
  ∃ content, contentAt ix.disk path = some content ∧ Embeds ix.db path content

/-- **A note that is not pending, and indexed as it is, has the embeddings of its text.** -/
def Lockstep (ix : Indexer F) : Prop :=
  ∀ path src, ix.db.source path = some src → src.embeddedFingerprint = some src.fingerprint →
    fingerprintAt ix.disk path = some src.fingerprint → Current ix path

/-- An edit gives the file a fingerprint it never had. -/
def Fresh (f : Followed F) : Action F → Prop
  | .edit path (some file) => ∀ fp ∈ file.fingerprint, fp ∉ f.used path
  | _ => True

/-- **No store fails after its deletion, with rows still to insert, for a note already stamped with the
fingerprint it stores.** -/
def StoresWhole (f : Followed F) : Action F → Prop
  | .store vectors (some (k + 1)) => ∀ rest h rows, f.ix.pass = some ⟨rest, some h⟩ →
      replyFor h.chunks vectors = .rows rows → stamp f.ix.db h.path = some h.fingerprint → rows.length ≤ k
  | _ => True

/-! ### The invariant -/

/-- What a stamp says of a note. -/
def StampedAt (disk : Path → Option File) (used : Path → List Fingerprint) (db : Db F) (path : Path) : Prop :=
  ∀ fp ∈ stamp db path, fp ∈ used path ∧
    (fingerprintAt disk path = some fp → ∃ content, contentAt disk path = some content ∧ Embeds db path content)

/-- What a pass knows of the note it holds: the fingerprint tells whether its passages are current, and any
other stamp is of the past. -/
structure HeldOf (f : Followed F) (h : Held) : Prop where
  used : h.fingerprint ∈ f.used h.path
  chunks : ∃ content, h.chunks = passages h.path content ∧
    (fingerprintAt f.ix.disk h.path = some h.fingerprint → contentAt f.ix.disk h.path = some content)
  past : ∀ fp ∈ stamp f.ix.db h.path, fp ≠ h.fingerprint → fingerprintAt f.ix.disk h.path ≠ some fp

structure Inv (f : Followed F) : Prop where
  current : ∀ path, ∀ fp ∈ fingerprintAt f.ix.disk path, fp ∈ f.used path
  stamped : ∀ path, StampedAt f.ix.disk f.used f.ix.db path
  held : ∀ p ∈ f.ix.pass, ∀ h ∈ p.held, HeldOf f h

theorem Inv.lockstep {f : Followed F} (hi : Inv f) : Lockstep f.ix := by
  intro path src hsrc hstamp hfp
  exact (hi.stamped path src.fingerprint (by simp [stamp, hsrc, hstamp])).2 hfp

theorem inv_start (disk : Path → Option File) : Inv (start disk : Followed F) where
  current path fp h := by simpa [start, Indexer.new, eq_comm] using h
  stamped path := nofun
  held := nofun

/-- Rows and stamp that are left as they are stay in step. -/
theorem StampedAt.keeps {disk : Path → Option File} {used : Path → List Fingerprint} {db db' : Db F} {path : Path}
    (h : StampedAt disk used db path) (hkept : ∀ fp, stamp db' path = some fp →
      stamp db path = some fp ∧ db'.vectors path = db.vectors path) : StampedAt disk used db' path := by
  intro fp hfp
  obtain ⟨hstamp, hv⟩ := hkept fp hfp
  obtain ⟨hused, hcur⟩ := h fp hstamp
  refine ⟨hused, fun hnow => ?_⟩
  obtain ⟨content, hc, hemb⟩ := hcur hnow
  refine ⟨content, hc, ?_⟩
  unfold Embeds at hemb ⊢
  rwa [hv]

section Step
variable {f f' : Followed F}

/-- An edit: whatever was stamped or held is of the past. -/
theorem inv_edit (hi : Inv f) {path : Path} {file : Option File} (hok : Fresh f (.edit path file))
    (hs : f.step (.edit path file) = some f') : Inv f' := by
  cases hs
  have hsub : ∀ p, f.used p ⊆ usedAfter (F := F) f.used (.edit path file) p := by
    intro p fp hfp
    cases file with
    | none => exact hfp
    | some file =>
      by_cases hp : p = path
      · subst hp
        simp [usedAfter, hfp]
      · simpa [usedAfter, hp] using hfp
  -- what was used before is no longer the fingerprint of the file edited
  have hold : ∀ p fp, fp ∈ f.used p →
      fingerprintAt (Function.update f.ix.disk path file) p = some fp → p ≠ path := by
    rintro p fp hused hfp rfl
    cases file with
    | none => simp [fingerprintAt] at hfp
    | some file => exact hok fp (by simpa [fingerprintAt] using hfp) hused
  have hother : ∀ p, p ≠ path →
      fingerprintAt (Function.update f.ix.disk path file) p = fingerprintAt f.ix.disk p ∧
        contentAt (Function.update f.ix.disk path file) p = contentAt f.ix.disk p := by
    intro p hp
    simp [fingerprintAt, contentAt, hp]
  refine ⟨fun p fp hfp => ?_, fun p fp hfp => ?_, fun p hp h hh => ?_⟩
  · by_cases hp : p = path
    · subst hp
      cases file with
      | none => simp [fingerprintAt] at hfp
      | some file =>
        have : file.fingerprint = some fp := by simpa [fingerprintAt] using hfp
        simp [usedAfter, this]
    · exact hsub p (hi.current p fp ((hother p hp).1 ▸ hfp))
  · obtain ⟨hused, hcur⟩ := hi.stamped p fp hfp
    refine ⟨hsub p hused, fun hnow => ?_⟩
    obtain ⟨h1, h2⟩ := hother p (hold p fp hused hnow)
    rw [h1] at hnow
    rw [h2]
    exact hcur hnow
  · obtain ⟨hused, ⟨content, hchunks, hcur⟩, hpast⟩ := hi.held p hp h hh
    refine ⟨hsub _ hused, ⟨content, hchunks, fun hnow => ?_⟩, fun fp hfp hne hnow => ?_⟩
    · obtain ⟨h1, h2⟩ := hother _ (hold _ _ hused hnow)
      exact h2.trans (hcur (h1 ▸ hnow))
    · have hused' := (hi.stamped h.path fp hfp).1
      exact hpast fp hfp hne ((hother _ (hold _ _ hused' hnow)).1 ▸ hnow)

/-- A sync leaves the stamps and the rows of the notes it keeps. -/
theorem inv_sync (hi : Inv f) {order : HashOrder Path} {v : Vault} (hs : f.step (.sync order v) = some f') :
    Inv f' := by
  obtain ⟨ix, hix, rfl⟩ := Option.map_eq_some_iff.mp hs
  simp only [Indexer.step, Option.ite_none_right_eq_some, Option.some.injEq] at hix
  obtain ⟨-, rfl⟩ := hix
  have hkept : ∀ q fp, stamp (f.ix.db.sync order v.files) q = some fp →
      stamp f.ix.db q = some fp ∧ (f.ix.db.sync order v.files).vectors q = f.ix.db.vectors q := by
    refine sync_inv (P := fun db => ∀ q fp, stamp db q = some fp →
      stamp f.ix.db q = some fp ∧ db.vectors q = f.ix.db.vectors q) ?_ (fun q fp h => ⟨h, rfl⟩) order v.files
    intro db b h q fp hfp
    obtain ⟨hfp, hv⟩ := stamp_batch db q fp hfp
    rw [hv]
    exact h q fp hfp
  refine ⟨hi.current, fun p => (hi.stamped p).keeps (hkept p), fun p hp h hh => ?_⟩
  · obtain ⟨hused, hchunks, hpast⟩ := hi.held p hp h hh
    exact ⟨hused, hchunks, fun fp hfp => hpast fp (hkept _ fp hfp).1⟩

/-- A pass reads a note: its fingerprint is the current one. -/
theorem inv_read (hi : Inv f) (hs : f.step .read = some f') : Inv f' := by
  obtain ⟨ix, hix, rfl⟩ := Option.map_eq_some_iff.mp hs
  simp only [Indexer.step] at hix
  split at hix
  · next path rest hp =>
    cases hix
    refine ⟨hi.current, hi.stamped, ?_⟩
    simp only [Option.mem_def, Option.some.injEq, forall_eq', Option.map_eq_some_iff]
    rintro h ⟨⟨fp, chunks⟩, hread, rfl⟩
    simp only [readAndChunk, Option.bind_eq_bind, Option.bind_eq_some_iff, Option.some.injEq,
      Prod.mk.injEq] at hread
    obtain ⟨file, hfile, fp', hfp, content, hc, rfl, rfl⟩ := hread
    have hnow : fingerprintAt f.ix.disk path = some fp' := by simp [fingerprintAt, hfile, hfp]
    refine ⟨hi.current path fp' hnow, ⟨content, rfl, fun _ => by simp [contentAt, hfile, hc]⟩, ?_⟩
    intro fp'' _ hne hfp''
    exact hne (Option.some.inj (hfp''.symm.trans hnow))
  · simp at hix

/-- The rows a whole store leaves. -/
theorem embeds_toRows {db : Db F} {path : Path} {content : Text} {rows : List (Passage × List F)}
    (hrows : rows.map Prod.fst = passages path content) : Embeds (replaceRows db path (toRows rows)) path content := by
  have hpath : ∀ e ∈ toRows rows, e.passage.path = path :=
    path_of_mem_toRows fun r hr => path_of_mem_passages r.1 (hrows ▸ List.mem_map_of_mem hr)
  unfold Embeds
  rw [vectors_replaceRows db hpath, if_pos rfl, ← hrows, List.zipIdx_map, toRows, List.map_map]
  rfl

/-- **A store**: the note is stamped with rows of the text it was read from; or it is left with any rows, its
stamp of the past. -/
theorem inv_store (hi : Inv f) {vectors : Option (List (List F))} {fails : Option ℕ}
    (hok : StoresWhole f (.store vectors fails)) (hs : f.step (.store vectors fails) = some f') : Inv f' := by
  obtain ⟨ix, hix, rfl⟩ := Option.map_eq_some_iff.mp hs
  obtain ⟨rest, h, hp, ⟨hdisk, hdb, hpass, -⟩ | ⟨rows, hr, hst⟩⟩ := step_store hix
  · exact ⟨hdisk ▸ hi.current, hdisk ▸ hdb ▸ hi.stamped, fun p hmem h' hh => absurd (hpass p hmem ▸ hh) nofun⟩
  obtain ⟨hused, ⟨content, hchunks, hcur⟩, hpast⟩ := hi.held _ hp h rfl
  have hrows : rows.map Prod.fst = passages h.path content := (rows_of_reply hr).trans hchunks
  have hpath : ∀ e ∈ inserted rows fails, e.passage.path = h.path := fun e he =>
    path_of_mem_toRows (fun r hr => path_of_mem_passages r.1 (hrows ▸ List.mem_map_of_mem hr)) e
      (inserted_subset he)
  have hother : ∀ q, q ≠ h.path → (replaceRows f.ix.db h.path (inserted rows fails)).vectors q =
      f.ix.db.vectors q := by
    intro q hq
    rw [vectors_replaceRows _ hpath, if_neg hq]
  obtain ⟨hdisk, ⟨-, hdb, hpass⟩ | ⟨k, rfl, hk, hpass, hdb⟩ | ⟨rfl, hpass, hdb⟩⟩ := stored_cases hst
  · exact ⟨hdisk ▸ hi.current, hdisk ▸ hdb ▸ hi.stamped, by simp [hpass]⟩
  · refine ⟨hdisk ▸ hi.current, fun q => ?_, by simp [hpass]⟩
    rw [hdb, hdisk]
    by_cases hq : q = h.path
    · subst hq
      intro fp hfp
      refine ⟨(hi.stamped h.path fp hfp).1, fun hnow => ?_⟩
      by_cases hne : fp = h.fingerprint
      · -- the store was whole but for the stamp, which is there
        subst hne
        have hall := hok rest h rows hp hr hfp
        obtain rfl : k = rows.length := by omega
        refine ⟨content, hcur hnow, ?_⟩
        have hins : inserted rows (some (rows.length + 1)) = toRows rows :=
          List.take_of_length_le (by simp [length_toRows])
        rw [hins]
        exact embeds_toRows hrows
      · exact absurd hnow (hpast fp hfp hne)
    · exact (hi.stamped q).keeps fun fp hfp => ⟨hfp, hother q hq⟩
  · refine ⟨hdisk ▸ hi.current, fun q => ?_, by simp [hpass]⟩
    rw [hdb, hdisk]
    by_cases hq : q = h.path
    · subst hq
      intro fp hfp
      rw [stamp_stampEmbedded, if_pos rfl] at hfp
      obtain ⟨-, -, rfl⟩ := Option.map_eq_some_iff.mp hfp
      exact ⟨hused, fun hnow => ⟨content, hcur hnow, embeds_toRows hrows⟩⟩
    · refine (hi.stamped q).keeps fun fp hfp => ⟨?_, hother q hq⟩
      rwa [stamp_stampEmbedded, if_neg hq] at hfp

/-- **The step lemma.** -/
theorem inv_step {a : Action F} (hi : Inv f) (hok : Fresh f a ∧ StoresWhole f a) (hs : f.step a = some f') :
    Inv f' := by
  cases a with
  | edit path file => exact inv_edit hi hok.1 hs
  | sync order v => exact inv_sync hi hs
  | read => exact inv_read hi hs
  | store vectors fails => exact inv_store hi hok.2 hs
  | start | finish =>
    obtain ⟨ix, hix, rfl⟩ := Option.map_eq_some_iff.mp hs
    simp only [Indexer.step, Option.ite_none_right_eq_some, Option.some.injEq] at hix
    obtain ⟨-, rfl⟩ := hix
    exact ⟨hi.current, hi.stamped, by simp⟩

end Step

/-- The index of the old text, its note embedded from a passage of the new one. -/
def aheadDb (es : List (Embedding ℕ)) : Db ℕ := ⟨passages note ['o'], [⟨note, ⟨1, 1⟩, some ⟨2, 1⟩⟩], es⟩

/-- The note is indexed, then changed, and a pass reads it. -/
def readChanged : List (Action ℕ) :=
  [.sync inOrder (letterVault 1 'o'), .edit note (some (letter 2 'n')), .start, .read]

/-- Its embeddings are stored, and a second pass reads it, for it is still pending. -/
def readAgain : List (Action ℕ) := [.store (some [[1]]) none, .finish, .start, .read]

/-- The second store fails after its deletion; then the note is indexed. -/
def failed : List (Action ℕ) := [.store (some [[1]]) (some 1), .sync inOrder (letterVault 2 'n')]

/-- The files after the change. -/
def changedDisk : Path → Option File := Function.update (letterDisk 1 'o') note (some (letter 2 'n'))

/-- The fingerprints used. -/
def changedUsed : Path → List Fingerprint :=
  Function.update (fun p => (fingerprintAt (letterDisk 1 'o') p).toList) note [⟨2, 1⟩, ⟨1, 1⟩]

/-- The pass that has read the changed note. -/
def readingPass : Pass := ⟨[], some ⟨note, ⟨2, 1⟩, passages note ['n']⟩⟩

theorem run_readChanged : run Followed.step (start (letterDisk 1 'o')) readChanged =
    some ⟨⟨changedDisk, letterDb 1 'o', some readingPass⟩, changedUsed⟩ := by
  simp only [readChanged, run, Followed.step, start, Indexer.step, Indexer.new, sync_letter]
  rfl

/-- The change gives the note another fingerprint. -/
theorem along_readChanged : Along Followed.step (fun f a => Fresh f a ∧ StoresWhole f a)
    (start (letterDisk 1 'o')) readChanged := by
  refine ⟨⟨trivial, trivial⟩, ?_⟩
  simp only [Followed.step, start, Indexer.step, Indexer.new, sync_letter]
  refine ⟨⟨fun fp hfp => ?_, trivial⟩, ⟨trivial, trivial⟩, ⟨trivial, trivial⟩, trivial⟩
  obtain rfl : (⟨2, 1⟩ : Fingerprint) = fp := Option.some.inj hfp
  decide

theorem run_readAgain {p : Passage} (hp : passages note ['n'] = [p]) :
    run Followed.step ⟨⟨changedDisk, letterDb 1 'o', some readingPass⟩, changedUsed⟩ readAgain =
      some ⟨⟨changedDisk, aheadDb [⟨0, p, [1]⟩], some readingPass⟩, changedUsed⟩ := by
  have hreply : replyFor (passages note ['n']) (some [[1]]) = .rows [(p, [1])] := by
    rw [hp]
    rfl
  simp only [readAgain, run, Followed.step, Indexer.step, readingPass, hreply, Indexer.stored]
  rfl

theorem run_failed {p : Passage} (hp : passages note ['n'] = [p]) (hpath : p.path = note) :
    run Followed.step ⟨⟨changedDisk, aheadDb [⟨0, p, [1]⟩], some readingPass⟩, changedUsed⟩ failed =
      some ⟨⟨changedDisk, (aheadDb []).sync inOrder (letterVault 2 'n').files, none⟩, changedUsed⟩ := by
  have hreply : replyFor (passages note ['n']) (some [[1]]) = .rows [(p, [1])] := by
    rw [hp]
    rfl
  have hdel : (aheadDb [⟨0, p, [1]⟩]).execAll ((storeEmbeddings note ⟨2, 1⟩ [(p, [1])]).take 1) = aheadDb [] := by
    rw [execAll_storeEmbeddings_take _ _ _ (Nat.zero_le _)]
    simp [aheadDb, replaceRows, hpath]
  simp only [failed, run, Followed.step, Indexer.step, readingPass, hreply, Indexer.stored, hdel]
  rfl

theorem sync_ahead : (aheadDb []).sync inOrder (letterVault 2 'n').files =
    (aheadDb []).execAll (Batch.index note ['n'] ⟨2, 1⟩).stmts := by
  have hb : syncBatches (aheadDb []) inOrder (letterVault 2 'n').files = [.index note ['n'] ⟨2, 1⟩] := by
    have hfiles : (letterVault 2 'n').files = [(note, letter 2 'n')] := rfl
    have hi : indexBatch (aheadDb []) (note, letter 2 'n') = some (.index note ['n'] ⟨2, 1⟩) := rfl
    rw [hfiles, syncBatches, List.filterMap_cons_some hi]
    simp [removed, inOrder, aheadDb]
  rw [Db.sync, syncStmts, hb, List.flatMap_singleton]

end Notely.Engine.EmbeddingLockstep
