import Notely.Engine.SearchSync

/-! # The index after complete syncs

A vault is edited at will between complete syncs; a fingerprint tells what a file holds and whether it can
be read (`FaithfulVault`). A sync passes over a note that cannot be read, and prunes only notes that are
gone, so a note that was indexed and can no longer be read keeps its passages.

* `recorded_synced`: after complete syncs every note recorded was readable, with exactly its passages.
* `exact_iff`: a sync leaves exactly the passages of the readable notes if and only if no note that cannot
  be read had passages before it. -/

namespace Notely.Engine.IndexExactness

open Notely.Lib.Strings Notely.Lib.Paths
open Notely.Engine.VaultFiles Notely.Engine.SearchIndex Notely.Engine.SearchSync

variable {F : Type} {contents : Path → Fingerprint → Option Text}

/-- The content of a file that can be read, and its metadata too. -/
def readable (f : File) : Option Text := if f.fingerprint.isSome then f.content else none

/-- A vault in which a fingerprint tells the content of a file, or that it has none that can be read. -/
structure FaithfulVault (contents : Path → Fingerprint → Option Text) extends Vault where
  content_eq : ∀ path file, (path, file) ∈ toVault.files → ∀ fp, file.fingerprint = some fp →
    file.content = contents path fp

/-- The tables after some complete syncs. -/
def synced (history : List (HashOrder Path × FaithfulVault contents)) : Db F :=
  history.foldl (fun db hv => db.sync hv.1 hv.2.files) .new

/-! ### What is recorded -/

/-- A note recorded was readable, and has the passages it had then; one that is not has none. -/
def RecordedAt (contents : Path → Fingerprint → Option Text) (path : Path) (known : Option Fingerprint)
    (rows : List Passage) : Prop :=
  match known with
  | none => rows = []
  | some fp => ∃ t, contents path fp = some t ∧ rows = passages path t

/-- **The invariant of complete syncs.** -/
def Recorded (contents : Path → Fingerprint → Option Text) (db : Db F) : Prop :=
  ∀ path, RecordedAt contents path (db.known path) (db.rows path)

section Sync
variable (db : Db F) (order : HashOrder Path) (v : FaithfulVault contents) {path : Path} {file : File}

/-- A sync passes over a note that cannot be read. -/
theorem indexBatch_unreadable (h : readable file = none) : indexBatch db (path, file) = none := by
  unfold readable at h
  unfold indexBatch
  cases hfp : file.fingerprint with
  | none => simp [hfp]
  | some fp =>
    have hc : file.content = none := by simpa [hfp] using h
    simp [hfp, hc]

/-- A readable note is left with its passages. -/
theorem sync_readable (hrec : Recorded contents db) (hf : (path, file) ∈ v.files) {t : Text}
    (ht : readable file = some t) : (db.sync order v.files).rows path = passages path t ∧
      (db.sync order v.files).known path = file.fingerprint := by
  unfold readable at ht
  split_ifs at ht with hsome
  obtain ⟨fp, hfp⟩ := Option.isSome_iff_exists.mp hsome
  by_cases hk : db.known path = some fp
  · have hskip : indexBatch db (path, file) = none := by simp [indexBatch, hfp, hk]
    obtain ⟨hrows, hknown⟩ := sync_skipped db order v.nodup hf hskip
    have hr := hrec path
    rw [hk] at hr
    obtain ⟨t', hc, hr⟩ := hr
    rw [← v.content_eq path file hf fp hfp, ht, Option.some.injEq] at hc
    rw [hrows, hknown, hr, hc, hk, hfp]
    exact ⟨rfl, rfl⟩
  · rw [hfp]
    exact sync_indexed db order v.nodup hf hfp ht hk

/-- **A complete sync keeps the invariant.** -/
theorem recorded_sync (hrec : Recorded contents db) : Recorded contents (db.sync order v.files) := by
  intro path
  by_cases hp : path ∈ v.files.map Prod.fst
  · obtain ⟨⟨p, file⟩, hf, rfl⟩ := List.mem_map.mp hp
    cases ht : readable file with
    | none =>
      obtain ⟨hrows, hknown⟩ := sync_skipped db order v.nodup hf (indexBatch_unreadable db ht)
      rw [hrows, hknown]
      exact hrec p
    | some t =>
      obtain ⟨hrows, hknown⟩ := sync_readable db order v hrec hf ht
      rw [hrows, hknown]
      unfold readable at ht
      split_ifs at ht with hsome
      obtain ⟨fp, hfp⟩ := Option.isSome_iff_exists.mp hsome
      rw [hfp]
      exact ⟨t, by rw [← v.content_eq p file hf fp hfp, ht], rfl⟩
  · obtain ⟨hrows, hknown⟩ := sync_removed db order v.nodup hp
    rw [hrows, hknown]
    have hr := hrec path
    unfold RecordedAt at hr ⊢
    cases hk : db.known path with
    | none => rwa [hk] at hr
    | some fp => rfl

end Sync

theorem recorded_synced (history : List (HashOrder Path × FaithfulVault contents)) :
    Recorded contents (synced history (F := F)) := by
  unfold synced
  generalize hdb : (Db.new : Db F) = db
  have h : Recorded contents db := hdb ▸ fun _ => rfl
  clear hdb
  induction history generalizing db with
  | nil => exact h
  | cons hv history ih => exact ih _ (recorded_sync db hv.1 hv.2 h)

/-! ### Exactness -/

/-- Every passage is one of a note of the vault that can be read, and each such note has its passages, each
of them once. -/
def Exact (v : Vault) (db : Db F) : Prop :=
  (∀ row ∈ db.chunks, ∃ file, (row.path, file) ∈ v.files ∧
    ∃ t, readable file = some t ∧ row ∈ passages row.path t) ∧
  ∀ path file, (path, file) ∈ v.files → ∀ t, readable file = some t → db.rows path = passages path t

/-- **No note of the vault that cannot be read has passages.** -/
def NoneLost (v : Vault) (db : Db F) : Prop :=
  ∀ path file, (path, file) ∈ v.files → readable file = none → db.rows path = []

theorem mem_rows_iff {db : Db F} {row : Passage} {path : Path} :
    row ∈ db.rows path ↔ row ∈ db.chunks ∧ row.path = path := by
  simp [Db.rows]

/-- What a sync makes of tables in which everything recorded was readable. -/
theorem exact_sync_iff {db : Db F} (hrec : Recorded contents db) (order : HashOrder Path)
    (v : FaithfulVault contents) : Exact v.toVault (db.sync order v.files) ↔ NoneLost v.toVault db := by
  constructor
  · rintro ⟨hrows, -⟩ path file hf hun
    rw [← (sync_skipped db order v.nodup hf (indexBatch_unreadable db hun)).1, List.eq_nil_iff_forall_not_mem]
    intro row hrow
    obtain ⟨hmem, rfl⟩ := mem_rows_iff.mp hrow
    obtain ⟨file', hf', t, ht, -⟩ := hrows row hmem
    -- there is one file of a path
    have hsame : file' = file := congrArg Prod.snd (List.inj_on_of_nodup_map v.nodup hf' hf rfl)
    rw [hsame, hun] at ht
    exact absurd ht nofun
  · intro hlost
    refine ⟨fun row hrow => ?_, fun path file hf t ht => (sync_readable db order v hrec hf ht).1⟩
    have hmem : row ∈ (db.sync order v.files).rows row.path := mem_rows_iff.mpr ⟨hrow, rfl⟩
    by_cases hp : row.path ∈ v.files.map Prod.fst
    · obtain ⟨⟨p, file⟩, hf, hpath⟩ := List.mem_map.mp hp
      obtain rfl : p = row.path := hpath
      cases ht : readable file with
      | none =>
        rw [(sync_skipped db order v.nodup hf (indexBatch_unreadable db ht)).1, hlost _ file hf ht] at hmem
        exact absurd hmem List.not_mem_nil
      | some t =>
        rw [(sync_readable db order v hrec hf ht).1] at hmem
        exact ⟨file, hf, t, ht, hmem⟩
    · rw [(sync_removed db order v.nodup hp).1] at hmem
      split_ifs at hmem with hk
      · exact absurd hmem List.not_mem_nil
      · have hr := hrec row.path
        rw [show db.known row.path = none by simpa using hk] at hr
        have hnil : db.rows row.path = [] := hr
        rw [hnil] at hmem
        exact absurd hmem List.not_mem_nil

/-- **After any history a complete sync leaves exactly the passages of the readable notes if and only if no
note that cannot be read had any before it.** -/
theorem exact_iff (contents : Path → Fingerprint → Option Text)
    (history : List (HashOrder Path × FaithfulVault contents)) (order : HashOrder Path)
    (v : FaithfulVault contents) :
    Exact v.toVault ((synced history : Db F).sync order v.files) ↔ NoneLost v.toVault (synced history : Db F) :=
  exact_sync_iff (recorded_synced history) order v

/-! ### A note that becomes unreadable -/

/-- The note has a text, and later none that can be read. -/
def thenUnreadable (_ : Path) (fp : Fingerprint) : Option Text := if fp.modified = 1 then some ['o'] else none

/-- A vault with the one note, of the given time of change. -/
def noteAt (time : ℕ) : FaithfulVault thenUnreadable where
  root := []
  entries := [.file "a.md".toList ⟨some ⟨some time, 1⟩, if time = 1 then some ['o'] else none⟩]
  names := ⟨trivial, trivial, by simp⟩
  content_eq path file hf fp hfp := by
    obtain ⟨rfl, rfl⟩ := Prod.mk.injEq _ _ _ _ ▸ List.mem_singleton.mp hf
    obtain rfl := Option.some.inj hfp
    rfl

/-- **The passages of a note that can no longer be read stay.** -/
theorem unreadable_not_pruned : ¬ ∀ (contents : Path → Fingerprint → Option Text)
    (history : List (HashOrder Path × FaithfulVault contents)) (order : HashOrder Path)
    (v : FaithfulVault contents), Exact v.toVault ((synced history : Db Unit).sync order v.files) := by
  intro h
  have hex := h thenUnreadable [(inOrder, noteAt 1)] inOrder (noteAt 2)
  rw [exact_sync_iff (recorded_synced _)] at hex
  have hfile : (note, (⟨some ⟨some 2, 1⟩, none⟩ : File)) ∈ (noteAt 2).files := List.mem_cons_self
  have hfile1 : (note, (⟨some ⟨some 1, 1⟩, some ['o']⟩ : File)) ∈ (noteAt 1).files := List.mem_cons_self
  have hrows : (synced [(inOrder, noteAt 1)] : Db Unit).rows note = passages note ['o'] :=
    (sync_readable Db.new inOrder (noteAt 1) (fun _ => rfl) hfile1 rfl).1
  exact passages_old (hrows.symm.trans (hex note _ hfile rfl))

end Notely.Engine.IndexExactness
