import Notely.Engine.EmbeddingPasses

/-! # One pass over notes that fail

`embed_pending` again, with an embedder whose answer may be another one for each note. A note that cannot be read,
or that gets a wrong number of vectors, is passed over; an error of the embedder ends the pass, so the notes listed
after it are not looked at, on this pass or on any later one that meets the same error.

* `passLoop_eq_embedLoop`: the pass does what the loop of the index does.
* `sources_passLoop`: what the pass leaves of the table of notes.
* `fair_iff`: when a pass attempts every note that can be read and leaves only failing notes pending. -/

namespace Notely.Engine.EmbeddingFailures

open Notely.Lib.Strings Notely.Lib.Paths
open Notely.Engine.VaultFiles Notely.Engine.SearchIndex Notely.Engine.SearchSync Notely.Engine.EmbeddingPasses

variable {F : Type}

/-! ### What becomes of a note -/

/-- What becomes of a note that a pass comes to. -/
inductive Fate (F : Type)
  | unreadable
  | refused
  | miscounted
  | embedded (fingerprint : Fingerprint) (rows : List (Passage × List F))

/-- The answers of an embedder: to the texts of a note, vectors or an error. -/
abbrev Embedder (F : Type) := Path → List Text → Option (List (List F))

/-- One note of `embed_pending`, with the file as it is when the pass reads it. -/
def fate (embed : Embedder F) (disk : Path → Option File) (path : Path) : Fate F :=
  match readAndChunk path (disk path) with
  | none => .unreadable
  | some (fp, chunks) =>
    match replyFor chunks (embed path (chunks.map Passage.body)) with
    | .halted => .refused
    | .skipped => .miscounted
    | .rows rows => .embedded fp rows

/-- A pass so far: the tables, how many notes were embedded, and which ones were attempted. -/
structure Progress (F : Type) where
  db : Db F
  embedded : ℕ := 0
  attempted : List Path := []

/-- The loop of `embed_pending`. -/
def passLoop (embed : Embedder F) (disk : Path → Option File) : List Path → Progress F → Progress F
  | [], r => r
  | path :: paths, r =>
    match fate embed disk path with
    | .unreadable => passLoop embed disk paths r
    | .refused => { r with attempted := r.attempted ++ [path] }
    | .miscounted => passLoop embed disk paths { r with attempted := r.attempted ++ [path] }
    | .embedded fp rows =>
      passLoop embed disk paths
        ⟨r.db.execAll (storeEmbeddings path fp rows), r.embedded + 1, r.attempted ++ [path]⟩

/-- `embed_pending`. -/
def pass (embed : Embedder F) (disk : Path → Option File) (db : Db F) : Progress F :=
  passLoop embed disk (pendingPaths db) { db := db }

section Fate
variable {embed : Embedder F} {disk : Path → Option File} {path : Path} {paths : List Path} {r : Progress F}

/-- What `embedNote` does with a note is told by its fate. -/
theorem embedNote_eq (embed : Embedder F) (disk : Path → Option File) (path : Path) (db : Db F) :
    embedNote db (embed path) path (disk path) =
    match fate embed disk path with
    | .unreadable => .skipped
    | .refused => .halted
    | .miscounted => .skipped
    | .embedded fp rows => .stored (db.execAll (storeEmbeddings path fp rows)) := by
  unfold embedNote fate replyFor
  cases readAndChunk path (disk path) with
  | none => rfl
  | some fc =>
    obtain ⟨fp, chunks⟩ := fc
    by_cases hnil : chunks = []
    · simp only [hnil, if_true]
    · simp only [if_neg hnil]
      cases embed path (chunks.map Passage.body) with
      | none => rfl
      | some vectors =>
        by_cases hlen : vectors.length = chunks.length
        · simp only [if_pos hlen]
        · simp only [if_neg hlen]

/-- **The pass does what the loop of the index does**, for an embedder that does not tell notes apart. -/
theorem passLoop_eq_embedLoop (answer : List Text → Option (List (List F))) :
    ((passLoop (fun _ => answer) disk paths r).db, (passLoop (fun _ => answer) disk paths r).embedded) =
      embedLoop answer disk paths r.db r.embedded := by
  induction paths generalizing r with
  | nil => rfl
  | cons path paths ih =>
    have hnote := embedNote_eq (fun _ => answer) disk path r.db
    unfold passLoop embedLoop
    rw [hnote]
    cases fate (fun _ => answer) disk path with
    | unreadable => exact ih
    | refused => rfl
    | miscounted => exact ih
    | embedded fp rows => exact ih

/-- The note can be read. -/
def Readable (disk : Path → Option File) (path : Path) : Prop := (readAndChunk path (disk path)).isSome

/-- **The note fails**: it cannot be read, or the embedder answers with an error or with a wrong number of vectors. -/
def Fails (embed : Embedder F) (disk : Path → Option File) (path : Path) : Prop :=
  ∀ fp rows, fate embed disk path ≠ .embedded fp rows

theorem readable_iff : Readable disk path ↔ fate embed disk path ≠ .unreadable := by
  unfold Readable fate
  cases readAndChunk path (disk path) with
  | none => simp
  | some fc =>
    obtain ⟨fp, chunks⟩ := fc
    dsimp only
    cases replyFor chunks (embed path (chunks.map Passage.body)) <;> simp

end Fate

/-! ### What a pass reaches -/

/-- The notes that a pass comes to: up to the first that the embedder refuses. -/
def reached (embed : Embedder F) (disk : Path → Option File) : List Path → List Path
  | [] => []
  | path :: paths =>
    match fate embed disk path with
    | .refused => [path]
    | _ => path :: reached embed disk paths

/-- The row of a note after a pass that came to it. -/
def stampOf (embed : Embedder F) (disk : Path → Option File) (s : Source) : Source :=
  match fate embed disk s.path with
  | .embedded fp _ => { s with embeddedFingerprint := some fp }
  | _ => s

section Reached
variable {embed : Embedder F} {disk : Path → Option File} {path q : Path} {paths before after : List Path}
  {r : Progress F} {s : Source} {db : Db F}

theorem reached_subset : reached embed disk paths ⊆ paths := by
  induction paths with
  | nil => exact List.Subset.refl _
  | cons path paths ih =>
    unfold reached
    split
    · simp
    · exact List.cons_subset_cons path ih

/-- Nothing is reached after a note that is refused. -/
theorem reached_of_refused (h : fate embed disk path = .refused) :
    reached embed disk (before ++ path :: after) ⊆ before ++ [path] := by
  induction before with
  | nil =>
    rw [List.nil_append, reached, h]
    exact List.Subset.refl _
  | cons b before ih =>
    rw [List.cons_append, reached, List.cons_append]
    split
    · simp
    · exact List.cons_subset_cons b ih

/-- A note that is not reached stands after one that is refused. -/
theorem exists_refused (hq : q ∈ paths) (h : q ∉ reached embed disk paths) :
    ∃ before p after, paths = before ++ p :: after ∧ fate embed disk p = .refused ∧ q ∈ after := by
  induction paths with
  | nil => exact absurd hq List.not_mem_nil
  | cons path paths ih =>
    unfold reached at h
    split at h
    · rename_i hrefused
      have hne : q ≠ path := fun heq => h (heq ▸ List.mem_cons_self)
      exact ⟨[], path, paths, rfl, hrefused, (List.mem_cons.mp hq).resolve_left hne⟩
    · rw [List.mem_cons, not_or] at h
      obtain ⟨before, p, after, rfl, hp, hafter⟩ := ih ((List.mem_cons.mp hq).resolve_left h.1) h.2
      exact ⟨path :: before, p, after, rfl, hp, hafter⟩

/-- The notes attempted are those reached that can be read. -/
theorem attempted_passLoop : q ∈ (passLoop embed disk paths r).attempted ↔
    q ∈ r.attempted ∨ q ∈ reached embed disk paths ∧ Readable disk q := by
  induction paths generalizing r with
  | nil => simp [passLoop, reached]
  | cons path paths ih =>
    have hreadable : Readable disk path ↔ fate embed disk path ≠ .unreadable := readable_iff
    have hnoted (hread : Readable disk path) (rest : List Path) :
        q ∈ r.attempted ++ [path] ∨ q ∈ rest ∧ Readable disk q ↔
          q ∈ r.attempted ∨ q ∈ path :: rest ∧ Readable disk q := by
      rw [List.mem_append, List.mem_singleton, List.mem_cons, or_assoc]
      refine or_congr_right ⟨?_, ?_⟩
      · rintro (rfl | ⟨h, hq⟩)
        · exact ⟨Or.inl rfl, hread⟩
        · exact ⟨Or.inr h, hq⟩
      · rintro ⟨rfl | h, hq⟩
        · exact Or.inl rfl
        · exact Or.inr ⟨h, hq⟩
    unfold passLoop reached
    cases hfate : fate embed disk path with
    | unreadable =>
      have hnot : ¬ Readable disk path := fun h => hreadable.mp h hfate
      rw [ih, List.mem_cons]
      refine or_congr_right ⟨fun h => ⟨Or.inr h.1, h.2⟩, ?_⟩
      rintro ⟨rfl | h, hq⟩
      · exact absurd hq hnot
      · exact ⟨h, hq⟩
    | refused => simpa using hnoted (hreadable.mpr (by rw [hfate]; exact nofun)) []
    | miscounted =>
      rw [ih]
      exact hnoted (hreadable.mpr (by rw [hfate]; exact nofun)) _
    | embedded fp rows =>
      rw [ih]
      exact hnoted (hreadable.mpr (by rw [hfate]; exact nofun)) _

/-- What a store leaves of the table of notes. -/
theorem sources_storeEmbeddings (fp : Fingerprint) (rows : List (Passage × List F)) :
    (db.execAll (storeEmbeddings path fp rows)).sources =
      db.sources.map fun s => if s.path = path then { s with embeddedFingerprint := some fp } else s := by
  rw [execAll_storeEmbeddings]
  rfl

theorem path_stampOf : (stampOf embed disk s).path = s.path := by
  unfold stampOf
  split <;> rfl

/-- **What the pass leaves of the table of notes**: the rows of the notes that were embedded are stamped. -/
theorem sources_passLoop : (passLoop embed disk paths r).db.sources =
    r.db.sources.map fun s => if s.path ∈ reached embed disk paths then stampOf embed disk s else s := by
  induction paths generalizing r with
  | nil => simp [passLoop, reached]
  | cons path paths ih =>
    have hkept (hstamp : ∀ s : Source, s.path = path → stampOf embed disk s = s) (rest : List Path) (s : Source) :
        (if s.path ∈ rest then stampOf embed disk s else s) =
          if s.path ∈ path :: rest then stampOf embed disk s else s := by
      by_cases hs : s.path = path
      · rw [hstamp s hs, ite_self, ite_self]
      · simp only [List.mem_cons, hs, false_or]
    unfold passLoop reached
    cases hfate : fate embed disk path with
    | unreadable =>
      rw [ih]
      refine List.map_congr_left fun s _ => hkept (fun s hs => ?_) _ s
      rw [stampOf, hs, hfate]
    | refused =>
      have hempty := hkept (fun s hs => by rw [stampOf, hs, hfate]) []
      simp only [List.not_mem_nil, if_false] at hempty
      exact (List.map_id r.db.sources).symm.trans (List.map_congr_left fun s _ => hempty s)
    | miscounted =>
      rw [ih]
      refine List.map_congr_left fun s _ => hkept (fun s hs => ?_) _ s
      rw [stampOf, hs, hfate]
    | embedded fp rows =>
      rw [ih, sources_storeEmbeddings, List.map_map]
      refine List.map_congr_left fun s _ => ?_
      dsimp only [Function.comp]
      by_cases hs : s.path = path
      · have hstamp : stampOf embed disk s = { s with embeddedFingerprint := some fp } := by rw [stampOf, hs, hfate]
        have hagain : stampOf embed disk { s with embeddedFingerprint := some fp } =
            { s with embeddedFingerprint := some fp } := by rw [stampOf, hs, hfate]
        have hmem : s.path ∈ path :: reached embed disk paths := hs ▸ List.mem_cons_self
        simp only [if_pos hs, hagain, ite_self, if_pos hmem, hstamp]
      · have hmem : s.path ∈ path :: reached embed disk paths ↔ s.path ∈ reached embed disk paths := by simp [hs]
        simp only [if_neg hs, hmem]

end Reached

/-! ### One failing note among others -/

/-- **One failing note does not starve the others**: every pending note that can be read is attempted, and the notes
that are pending afterwards are those that failed. -/
structure Fair (embed : Embedder F) (disk : Path → Option File) (db : Db F) : Prop where
  attempted : ∀ p ∈ pendingPaths db, Readable disk p → p ∈ (pass embed disk db).attempted
  pending : ∀ p, p ∈ pendingPaths (pass embed disk db).db ↔ p ∈ pendingPaths db ∧ Fails embed disk p

/-- **Nothing stands in the way of a note**: after one that the embedder refuses, none is listed that can be read; and
those that do not fail are still what they were when they were indexed. -/
structure Unobstructed (embed : Embedder F) (disk : Path → Option File) (db : Db F) : Prop where
  last : ∀ before p after, pendingPaths db = before ++ p :: after → fate embed disk p = .refused →
    ∀ q ∈ after, ¬ Readable disk q
  current : ∀ p ∈ pendingPaths db, ∀ fp rows, fate embed disk p = .embedded fp rows → db.known p = some fp

section Fair
variable {embed : Embedder F} {disk : Path → Option File} {db : Db F} {p : Path} {s : Source}

theorem mem_pendingPaths : p ∈ pendingPaths db ↔
    ∃ s ∈ db.sources, s.path = p ∧ s.embeddedFingerprint ≠ some s.fingerprint := by
  simp only [pendingPaths, List.mem_map, List.mem_filter, decide_eq_true_eq]
  exact exists_congr fun s => by tauto

/-- The one row of a note tells the fingerprint it was indexed with. -/
theorem known_eq (hn : (db.sources.map Source.path).Nodup) (hs : s ∈ db.sources) :
    db.known s.path = some s.fingerprint := by
  have hfind : db.sources.find? (fun s' => decide (s'.path = s.path)) = some s := by
    cases hfound : db.sources.find? (fun s' => decide (s'.path = s.path)) with
    | none => simpa using List.find?_eq_none.mp hfound s hs
    | some s' =>
      have hpath : s'.path = s.path := by simpa using List.find?_some hfound
      rw [List.inj_on_of_nodup_map hn (List.mem_of_find?_eq_some hfound) hs hpath]
  rw [Db.known, Db.source, hfind, Option.map_some]

theorem nodup_pendingPaths (hn : (db.sources.map Source.path).Nodup) : (pendingPaths db).Nodup :=
  hn.sublist (List.filter_sublist.map _)

/-- The notes that are pending after a pass. -/
theorem mem_pendingPaths_pass : p ∈ pendingPaths (pass embed disk db).db ↔ ∃ s ∈ db.sources, s.path = p ∧
    (if s.path ∈ reached embed disk (pendingPaths db) then stampOf embed disk s else s).embeddedFingerprint ≠
      some s.fingerprint := by
  have hpath (s : Source) : (if s.path ∈ reached embed disk (pendingPaths db) then stampOf embed disk s else s).path =
      s.path := by
    split_ifs
    · exact path_stampOf
    · rfl
  have hfingerprint (s : Source) : (if s.path ∈ reached embed disk (pendingPaths db) then stampOf embed disk s
      else s).fingerprint = s.fingerprint := by
    split_ifs
    · unfold stampOf
      split <;> rfl
    · rfl
  rw [mem_pendingPaths, pass, sources_passLoop]
  constructor
  · rintro ⟨row, hrow, hp, hpending⟩
    obtain ⟨s, hs, rfl⟩ := List.mem_map.mp hrow
    rw [hpath] at hp
    rw [hfingerprint] at hpending
    exact ⟨s, hs, hp, hpending⟩
  · rintro ⟨s, hs, hp, hpending⟩
    refine ⟨_, List.mem_map_of_mem hs, (hpath s).trans hp, ?_⟩
    rw [hfingerprint]
    exact hpending

/-- A note that fails keeps its row. -/
theorem stampOf_of_fails (h : Fails embed disk s.path) : stampOf embed disk s = s := by
  unfold stampOf
  split
  · rename_i fp rows hfate
    exact absurd hfate (h fp rows)
  · rfl

theorem stampOf_of_embedded {fp : Fingerprint} {rows : List (Passage × List F)}
    (h : fate embed disk s.path = .embedded fp rows) :
    stampOf embed disk s = { s with embeddedFingerprint := some fp } := by
  rw [stampOf, h]

theorem readable_of_embedded {fp : Fingerprint} {rows : List (Passage × List F)}
    (h : fate embed disk p = .embedded fp rows) : Readable disk p :=
  readable_iff.mpr (by rw [h]; exact nofun)

theorem Fair.unobstructed (hn : (db.sources.map Source.path).Nodup) (h : Fair embed disk db) :
    Unobstructed embed disk db where
  last before p after hlist hrefused q hq hread := by
    have hpending : q ∈ pendingPaths db := hlist ▸ List.mem_append_right before (List.mem_cons_of_mem p hq)
    rcases attempted_passLoop.mp (h.attempted q hpending hread) with hnil | ⟨hreached, -⟩
    · exact absurd hnil List.not_mem_nil
    · have hnodup := hlist ▸ nodup_pendingPaths hn
      have hbefore : q ∈ before ++ [p] := reached_of_refused hrefused (hlist ▸ hreached)
      rw [← List.singleton_append, ← List.append_assoc] at hnodup
      exact (List.nodup_append.mp hnodup).2.2 q hbefore q hq rfl
  current p hp fp rows hfate := by
    obtain ⟨s, hs, rfl, -⟩ := mem_pendingPaths.mp hp
    rcases attempted_passLoop.mp (h.attempted s.path hp (readable_of_embedded hfate)) with hnil | ⟨hreached, -⟩
    · exact absurd hnil List.not_mem_nil
    · rw [known_eq hn hs]
      by_contra hne
      have hpending : s.path ∈ pendingPaths (pass embed disk db).db := by
        refine mem_pendingPaths_pass.mpr ⟨s, hs, rfl, ?_⟩
        rw [if_pos hreached, stampOf_of_embedded hfate]
        exact fun heq => hne heq.symm
      exact ((h.pending s.path).mp hpending).2 fp rows hfate

theorem Unobstructed.reached (h : Unobstructed embed disk db) (hp : p ∈ pendingPaths db) (hread : Readable disk p) :
    p ∈ EmbeddingFailures.reached embed disk (pendingPaths db) := by
  by_contra hnot
  obtain ⟨before, q, after, hlist, hrefused, hafter⟩ := exists_refused hp hnot
  exact h.last before q after hlist hrefused p hafter hread

theorem Unobstructed.fair (hn : (db.sources.map Source.path).Nodup) (h : Unobstructed embed disk db) :
    Fair embed disk db where
  attempted p hp hread := attempted_passLoop.mpr (Or.inr ⟨h.reached hp hread, hread⟩)
  pending p := by
    rw [mem_pendingPaths_pass]
    constructor
    · rintro ⟨s, hs, rfl, hpending⟩
      have hfails (hp : s.path ∈ pendingPaths db) : Fails embed disk s.path := by
        intro fp rows hfate
        rw [if_pos (h.reached hp (readable_of_embedded hfate)), stampOf_of_embedded hfate] at hpending
        exact hpending ((h.current s.path hp fp rows hfate).symm.trans (known_eq hn hs))
      by_cases hreached : s.path ∈ EmbeddingFailures.reached embed disk (pendingPaths db)
      · exact ⟨reached_subset hreached, hfails (reached_subset hreached)⟩
      · rw [if_neg hreached] at hpending
        have hp : s.path ∈ pendingPaths db := mem_pendingPaths.mpr ⟨s, hs, rfl, hpending⟩
        exact ⟨hp, hfails hp⟩
    · rintro ⟨hp, hfails⟩
      obtain ⟨s, hs, rfl, hpending⟩ := mem_pendingPaths.mp hp
      refine ⟨s, hs, rfl, ?_⟩
      rw [stampOf_of_fails hfails, ite_self]
      exact hpending

end Fair

/-- **A pass is fair exactly if nothing stands in the way of a note.** -/
theorem fair_iff (embed : Embedder F) (disk : Path → Option File) (db : Db F)
    (hn : (db.sources.map Source.path).Nodup) : Fair embed disk db ↔ Unobstructed embed disk db :=
  ⟨fun h => h.unobstructed hn, fun h => h.fair hn⟩

/-- Two notes that were never embedded. -/
def twoNotes : Db ℕ := ⟨[], [⟨note, ⟨1, 1⟩, none⟩, ⟨["b.md".toList], ⟨1, 1⟩, none⟩], []⟩

/-- Both of them have a letter. -/
def bothThere (_ : Path) : Option File := some ⟨some ⟨some 1, 1⟩, some ['o']⟩

/-- An embedder that answers with an error for the first note only. -/
def refusesFirst (path : Path) (_ : List Text) : Option (List (List ℕ)) := if path = note then none else some [[1]]

theorem fair_twoNotes : Fair refusesFirst bothThere twoNotes ↔ Unobstructed refusesFirst bothThere twoNotes :=
  fair_iff refusesFirst bothThere twoNotes (by decide)

/-- **The second of two notes is never attempted** while the embedder refuses the first. -/
theorem second_starved : ¬ ∀ (embed : Embedder ℕ) (disk : Path → Option File) (db : Db ℕ),
    (db.sources.map Source.path).Nodup → Fair embed disk db := by
  intro h
  have hfair := h refusesFirst bothThere twoNotes (by decide)
  have hattempted := hfair.attempted ["b.md".toList] (by decide) rfl
  have hrefused : fate refusesFirst bothThere note = .refused := by
    have hread : readAndChunk note (bothThere note) = some (⟨1, 1⟩, passages note ['o']) := rfl
    simp only [fate, hread, replyFor, if_neg passages_old, refusesFirst, if_true]
  have hreached : ["b.md".toList] ∈ reached refusesFirst bothThere ([] ++ note :: [["b.md".toList]]) :=
    ((attempted_passLoop.mp hattempted).resolve_left List.not_mem_nil).1
  exact absurd (reached_of_refused hrefused hreached) (by decide)

end Notely.Engine.EmbeddingFailures
