import Mathlib.Algebra.Group.Nat.Defs
import Mathlib.Data.Char
import Mathlib.Data.List.Lex
import Mathlib.Data.List.Sort
import Notely.Engine.Jobs
import Notely.Lib.Lts

/-! # The durable job queue

`pipeline/job_store.rs` under the registry of `pipeline/jobs.rs`. A row of the table holds the columns of a job,
its enumerations as text; `upsert` writes all of them but the time of creation, and `list_unfinished` reads the
jobs back. An operation of the registry is two halves, the map and the row, between which operations on other
jobs may come.

* `toJob_ofJob`: a row read back is the job that was written.
* `registry_register`, `registry_update`: the two halves together are the operations of `JobRegistry`.
* `Mirrors`: every job without a writer is in the map as in the table; `mirrors_step`.
* `queue_mirrors`: once every writer is done, the jobs listed are those of the registry that are not terminal. -/

namespace Notely.Engine.DurableQueue

open Notely.Lib Notely.Lib.Strings Notely.Engine.Domain Notely.Engine.Jobs

/-! ### Rows -/

/-- `parse_enum`: the value of this name. -/
def parseEnum {α : Type} (values : List α) (token : α → Text) (s : Text) : Option α :=
  values.find? fun a => token a = s

/-- The values of `JobKind`. -/
def kinds : List JobKind := [.process, .reprocess, .embedding]

/-- The values of `JobStatus`. -/
def statuses : List JobStatus := [.queued, .running, .completed, .failed, .cancelled]

/-- The values of `JobStage`. -/
def stages : List JobStage :=
  [.created, .mediaProcessing, .transcription, .chunking, .extraction, .synthesis, .validation, .rendering, .storing,
    .done]

/-- The columns of a row, besides its id. -/
structure Row where
  kind : Text
  meetingId : Option Text
  state : Text
  stage : Text
  attempts : ℤ
  error : Option Text
  createdAt : Text
  updatedAt : Text
  deriving DecidableEq

/-- The table `jobs`, by its primary key. -/
abbrev JobStore := List (JobId × Row)

/-- The columns that `upsert` writes for a job, in a row created at `createdAt`. -/
def Row.ofJob (job : Job) (createdAt now : Text) : Row where
  kind := job.kind.token
  meetingId := job.meetingId
  state := job.status.token
  stage := job.stage.token
  attempts := job.attempts
  error := job.error
  createdAt := createdAt
  updatedAt := now

/-- The job read from a row: what a column does not hold is replaced by a default. -/
def Row.toJob (id : JobId) (row : Row) : Job where
  id := id
  kind := (parseEnum kinds JobKind.token row.kind).getD .process
  status := (parseEnum statuses JobStatus.token row.state).getD .queued
  stage := (parseEnum stages JobStage.token row.stage).getD .created
  meetingId := row.meetingId
  error := row.error
  attempts := (max row.attempts 0).toNat % 2 ^ 32

/-- `upsert`: the time of creation is kept. -/
def upsert (store : JobStore) (job : Job) (now : Text) : JobStore :=
  Table.upsert (fun old => .ofJob job ((old.map Row.createdAt).getD now) now) job.id store

/-- `state IN ('queued','running')`. -/
def Row.Unfinished (row : Row) : Prop := row.state = "queued".toList ∨ row.state = "running".toList

instance (row : Row) : Decidable row.Unfinished := inferInstanceAs (Decidable (_ ∨ _))

/-- The rows that `list_unfinished` selects, in the order of their creation. -/
def selected (store : JobStore) : JobStore :=
  (store.filter fun row => row.2.Unfinished).insertionSort fun a b => a.2.createdAt ≤ b.2.createdAt

/-- `list_unfinished`. -/
def listUnfinished (store : JobStore) : List Job := (selected store).map fun row => row.2.toJob row.1

section Rows
variable {job : Job} {store : JobStore} {createdAt now : Text} {id : JobId} {row : Row}

@[simp] theorem parseEnum_kind (k : JobKind) : parseEnum kinds JobKind.token k.token = some k := by
  cases k <;> rfl

@[simp] theorem parseEnum_status (s : JobStatus) : parseEnum statuses JobStatus.token s.token = some s := by
  cases s <;> rfl

@[simp] theorem parseEnum_stage (s : JobStage) : parseEnum stages JobStage.token s.token = some s := by
  cases s <;> rfl

/-- **A row read back is the job that was written.** -/
theorem toJob_ofJob (h : job.attempts < 2 ^ 32) : (Row.ofJob job createdAt now).toJob job.id = job := by
  have hattempts : (max (job.attempts : ℤ) 0).toNat % 2 ^ 32 = job.attempts := by omega
  unfold Row.ofJob Row.toJob
  simp only [hattempts, parseEnum_kind, parseEnum_status, parseEnum_stage, Option.getD_some]

theorem get_upsert_self (h : job.attempts < 2 ^ 32) :
    (Table.get job.id (upsert store job now)).map (Row.toJob job.id) = some job := by
  simp [upsert, toJob_ofJob h]

theorem get_upsert_of_ne (h : id ≠ job.id) : Table.get id (upsert store job now) = Table.get id store :=
  Table.get_upsert_of_ne h

/-- The state of a row that was written tells whether the job is terminal. -/
theorem unfinished_iff : (Row.ofJob job createdAt now).Unfinished ↔ job.status.isTerminal = false := by
  change job.status.token = "queued".toList ∨ job.status.token = "running".toList ↔ _
  cases job.status <;> decide

theorem mem_selected {row : JobId × Row} : row ∈ selected store ↔ row ∈ store ∧ row.2.Unfinished := by
  unfold selected
  rw [List.mem_insertionSort, List.mem_filter, decide_eq_true_iff]

theorem nodup_selected (h : (store.map Prod.fst).Nodup) : ((selected store).map Prod.fst).Nodup := by
  unfold selected
  rw [((List.perm_insertionSort _ _).map Prod.fst).nodup_iff]
  exact h.sublist (List.filter_sublist.map _)

end Rows

/-! ### The registry over the table -/

/-- The part of a job that `update` changes. -/
structure Standing where
  status : JobStatus
  stage : JobStage
  meetingId : Option MeetingId
  error : Option Text

/-- A job with a standing. -/
def Job.withStanding (job : Job) (s : Standing) : Job :=
  { job with status := s.status, stage := s.stage, meetingId := s.meetingId, error := s.error }

/-- A job whose standing is changed. -/
def Job.change (job : Job) (f : Standing → Standing) : Job :=
  Job.withStanding job (f ⟨job.status, job.stage, job.meetingId, job.error⟩)

/-- The second half of an operation under way. -/
inductive Half
  /-- The row is written, the entry not yet inserted. -/
  | insert (job : Job)
  /-- The entry is changed, its snapshot not yet written. -/
  | persist (job : Job)

/-- The job of a half. -/
def Half.job : Half → Job
  | .insert job | .persist job => job

/-- `JobRegistry` with its `JobStore`, and the operations under way. -/
structure Queue where
  inner : List (JobId × Entry) := []
  store : JobStore := []
  writers : List (JobId × Half) := []

/-- The first half of an operation, or the second half of the one under way for a job. -/
inductive Action
  | create (id : JobId) (kind : JobKind) (now : Text)
  | reinsert (job : Job) (now : Text)
  | update (id : JobId) (f : Standing → Standing)
  | finish (id : JobId) (now : Text)

namespace Queue

/-- Nothing is under way for the job. -/
def Free (q : Queue) (id : JobId) : Prop := Table.get id q.writers = none

instance (q : Queue) (id : JobId) : Decidable (q.Free id) := inferInstanceAs (Decidable (_ = none))

/-- `create` and `reinsert`: `persist`, then the entry. -/
def register (q : Queue) (job : Job) (now : Text) : Queue :=
  { q with store := upsert q.store job now, writers := Table.put job.id (.insert job) q.writers }

/-- `update`: the entry, then `persist`. -/
def update (q : Queue) (id : JobId) (f : Standing → Standing) : Queue :=
  match Table.get id q.inner with
  | some entry =>
    let job := Job.change entry.job f
    { q with
      inner := Table.put id { entry with job := job } q.inner
      writers := Table.put id (.persist job) q.writers }
  | none => q

/-- The second half. -/
def finish (q : Queue) (now : Text) : Half → Queue
  | .insert job => { q with inner := Table.put job.id ⟨job, false⟩ q.inner }
  | .persist job => { q with store := upsert q.store job now }

/-- One writer at a time for a job; the attempts of a job are a `u32`. -/
def step (q : Queue) : Action → Option Queue
  | .create id kind now => if q.Free id then some (q.register (Job.new id kind) now) else none
  | .reinsert job now => if q.Free job.id ∧ job.attempts < 2 ^ 32 then some (q.register job now) else none
  | .update id f => if q.Free id then some (q.update id f) else none
  | .finish id now =>
    match Table.get id q.writers with
    | some half => some { q.finish now half with writers := Table.erase id q.writers }
    | none => none

/-- The jobs of the registry that are not terminal. -/
def unfinished (q : Queue) : List Job := (q.inner.map fun row => row.2.job).filter fun job => ! job.status.isTerminal

end Queue

/-! ### The registry with the jobs at hand -/

/-- The registry whose table has the jobs of the rows. -/
def Queue.registry (q : Queue) : JobRegistry := ⟨q.inner, q.store.map fun row => (row.1, row.2.toJob row.1)⟩

section Registry
variable {q : Queue} {job : Job} {id : JobId} {now now' : Text} {f : Standing → Standing} {entry : Entry}

theorem jobs_upsert {store : JobStore} (h : job.attempts < 2 ^ 32) :
    (upsert store job now).map (fun row => (row.1, row.2.toJob row.1)) =
      Table.put job.id job (store.map fun row => (row.1, row.2.toJob row.1)) :=
  Table.map_upsert (g := fun id row => Row.toJob id row) fun _ => toJob_ofJob h

/-- **Both halves of `create` or `reinsert`**, one after the other. -/
theorem registry_register (h : job.attempts < 2 ^ 32) :
    ((q.register job now).finish now' (.insert job)).registry = q.registry.reinsert job true := by
  simp only [Queue.registry, Queue.register, Queue.finish, jobs_upsert h]
  rfl

/-- **Both halves of `update`**, one after the other. -/
theorem registry_update (hget : Table.get id q.inner = some entry) (h : entry.job.attempts < 2 ^ 32) :
    ((q.update id f).finish now (.persist (Job.change entry.job f))).registry =
      q.registry.update id (Job.change · f) true := by
  have hbound : (Job.change entry.job f).attempts < 2 ^ 32 := h
  have hentry : Table.get id q.registry.inner = some entry := hget
  simp only [Queue.update, hget, JobRegistry.update, hentry]
  simp only [Queue.finish, Queue.registry, jobs_upsert hbound]
  rfl

end Registry

/-! ### The table mirrors the map -/

/-- The job of the row of an id. -/
def Queue.row (q : Queue) (id : JobId) : Option Job := (Table.get id q.store).map (Row.toJob id)

/-- `get`: the job of the entry of an id. -/
def Queue.get (q : Queue) (id : JobId) : Option Job := (Table.get id q.inner).map Entry.job

/-- A job that may stand under an id. -/
def Fits (id : JobId) (job : Job) : Prop := job.id = id ∧ job.attempts < 2 ^ 32

/-- What an operation under way has done for a job. -/
def Half.Done (q : Queue) (id : JobId) : Half → Prop
  | .insert job => Fits id job ∧ q.row id = some job
  | .persist job => Fits id job ∧ q.get id = some job

/-- **The invariant.** -/
structure Mirrors (q : Queue) : Prop where
  agree : ∀ id, q.Free id → q.row id = q.get id
  half : ∀ id half, Table.get id q.writers = some half → half.Done q id
  fits : ∀ id job, q.get id = some job → Fits id job
  written : ∀ id row, Table.get id q.store = some row →
    ∃ job createdAt now, row = .ofJob job createdAt now ∧ Fits id job
  rows : (q.store.map Prod.fst).Nodup
  entries : (q.inner.map Prod.fst).Nodup

section Mirrors
variable {q q' : Queue} {id id' : JobId} {job : Job} {now : Text} {f : Standing → Standing} {half : Half}

theorem mirrors_empty : Mirrors {} where
  agree _ _ := rfl
  half _ _ h := by simp at h
  fits _ _ h := by simp [Queue.get] at h
  written _ _ h := by simp at h
  rows := List.nodup_nil
  entries := List.nodup_nil

/-- The rows after a job is written. -/
theorem written_upsert {store : JobStore} (h : ∀ id row, Table.get id store = some row →
      ∃ job createdAt now, row = .ofJob job createdAt now ∧ Fits id job) (hfits : Fits job.id job) (id : JobId)
    (row : Row) (hrow : Table.get id (upsert store job now) = some row) :
    ∃ job createdAt now, row = .ofJob job createdAt now ∧ Fits id job := by
  by_cases hid : id = job.id
  · subst hid
    rw [upsert, Table.get_upsert_self] at hrow
    exact ⟨job, _, now, (Option.some.inj hrow).symm, hfits⟩
  · rw [get_upsert_of_ne hid] at hrow
    exact h id row hrow

theorem mirrors_register (h : Mirrors q) (hfits : Fits job.id job) : Mirrors (q.register job now) where
  agree id hfree := by
    by_cases hid : id = job.id
    · subst hid
      simp [Queue.Free, Queue.register] at hfree
    · have hold : q.Free id := by simpa [Queue.Free, Queue.register, Table.get_put_of_ne hid] using hfree
      simpa only [Queue.row, Queue.get, Queue.register, get_upsert_of_ne hid] using h.agree id hold
  half id half hw := by
    by_cases hid : id = job.id
    · subst hid
      obtain rfl : .insert job = half := by simpa [Queue.register] using hw
      exact ⟨hfits, get_upsert_self hfits.2⟩
    · have hold : half.Done q id := h.half id half (by simpa [Queue.register, Table.get_put_of_ne hid] using hw)
      cases half with
      | insert job' => exact ⟨hold.1, by simpa only [Queue.row, Queue.register, get_upsert_of_ne hid] using hold.2⟩
      | persist job' => exact hold
  fits := h.fits
  written := written_upsert h.written hfits
  rows := Table.nodup_keys_upsert h.rows
  entries := h.entries

theorem mirrors_update (h : Mirrors q) (hfree : q.Free id) : Mirrors (q.update id f) := by
  unfold Queue.update
  cases hget : Table.get id q.inner with
  | none => exact h
  | some entry =>
    have hentry : Fits id entry.job := h.fits id entry.job (by simp [Queue.get, hget])
    have hfits : Fits id (Job.change entry.job f) := hentry
    refine ⟨fun id' hfree' => ?_, fun id' half hw => ?_, fun id' job hjob => ?_, h.written, h.rows,
      Table.nodup_keys_put h.entries⟩
    · by_cases hid : id' = id
      · subst hid
        simp [Queue.Free] at hfree'
      · have hold : q.Free id' := by simpa [Queue.Free, Table.get_put_of_ne hid] using hfree'
        simpa only [Queue.row, Queue.get, Table.get_put_of_ne hid] using h.agree id' hold
    · by_cases hid : id' = id
      · subst hid
        obtain rfl : .persist (Job.change entry.job f) = half := by simpa using hw
        exact ⟨hfits, by simp [Queue.get]⟩
      · have hold : half.Done q id' := h.half id' half (by simpa [Table.get_put_of_ne hid] using hw)
        cases half with
        | insert job' => exact hold
        | persist job' => exact ⟨hold.1, by simpa only [Queue.get, Table.get_put_of_ne hid] using hold.2⟩
    · by_cases hid : id' = id
      · subst hid
        obtain rfl : Job.change entry.job f = job := by simpa [Queue.get] using hjob
        exact hfits
      · exact h.fits id' job (by simpa only [Queue.get, Table.get_put_of_ne hid] using hjob)

/-- The second half of an operation: its job is in the map as in the table again. -/
theorem mirrors_finish (h : Mirrors q) (hw : Table.get id q.writers = some half) :
    Mirrors { q.finish now half with writers := Table.erase id q.writers } := by
  have hdone : half.Done q id := h.half id half hw
  have hold {id' : JobId} {half' : Half} (hw' : Table.get id' (Table.erase id q.writers) = some half') :
      id' ≠ id ∧ half'.Done q id' := by
    by_cases hid : id' = id
    · subst hid
      simp at hw'
    · exact ⟨hid, h.half id' half' (by rwa [Table.get_erase_of_ne hid] at hw')⟩
  have hfree {id' : JobId} (hne : id' ≠ id) (hf : Table.get id' (Table.erase id q.writers) = none) : q.Free id' := by
    rwa [Table.get_erase_of_ne hne] at hf
  cases half with
  | insert job =>
    obtain ⟨⟨rfl, hbound⟩, hrow⟩ := hdone
    refine ⟨fun id' hf => ?_, fun id' half' hw' => ?_, fun id' job' hjob => ?_, h.written, h.rows,
      Table.nodup_keys_put h.entries⟩
    · by_cases hid : id' = job.id
      · subst hid
        simpa [Queue.row, Queue.get, Queue.finish] using hrow
      · simpa only [Queue.row, Queue.get, Queue.finish, Table.get_put_of_ne hid] using h.agree id' (hfree hid hf)
    · obtain ⟨hid, hd⟩ := hold hw'
      cases half' with
      | insert job' => exact hd
      | persist job' => exact ⟨hd.1, by simpa only [Queue.get, Queue.finish, Table.get_put_of_ne hid] using hd.2⟩
    · by_cases hid : id' = job.id
      · subst hid
        obtain rfl : job = job' := by simpa [Queue.get, Queue.finish] using hjob
        exact ⟨rfl, hbound⟩
      · exact h.fits id' job' (by simpa only [Queue.get, Queue.finish, Table.get_put_of_ne hid] using hjob)
  | persist job =>
    obtain ⟨⟨rfl, hbound⟩, hentry⟩ := hdone
    refine ⟨fun id' hf => ?_, fun id' half' hw' => ?_, h.fits, written_upsert h.written ⟨rfl, hbound⟩,
      Table.nodup_keys_upsert h.rows, h.entries⟩
    · by_cases hid : id' = job.id
      · subst hid
        exact (get_upsert_self hbound).trans hentry.symm
      · simpa only [Queue.row, Queue.get, Queue.finish, get_upsert_of_ne hid] using h.agree id' (hfree hid hf)
    · obtain ⟨hid, hd⟩ := hold hw'
      cases half' with
      | insert job' => exact ⟨hd.1, by simpa only [Queue.row, Queue.finish, get_upsert_of_ne hid] using hd.2⟩
      | persist job' => exact hd

/-- **A step keeps the invariant.** -/
theorem mirrors_step {a : Action} (h : Mirrors q) (hs : q.step a = some q') : Mirrors q' := by
  cases a with
  | create id kind now =>
    simp only [Queue.step] at hs
    split_ifs at hs
    obtain rfl := Option.some.inj hs
    exact mirrors_register h ⟨rfl, by simp [Job.new]⟩
  | reinsert job now =>
    simp only [Queue.step] at hs
    split_ifs at hs with hguard
    obtain rfl := Option.some.inj hs
    exact mirrors_register h ⟨rfl, hguard.2⟩
  | update id f =>
    simp only [Queue.step] at hs
    split_ifs at hs with hfree
    obtain rfl := Option.some.inj hs
    exact mirrors_update h hfree
  | finish id now =>
    simp only [Queue.step] at hs
    cases hw : Table.get id q.writers with
    | none => simp [hw] at hs
    | some half =>
      rw [hw] at hs
      obtain rfl := Option.some.inj hs
      exact mirrors_finish h hw

/-! ### What is listed -/

/-- The jobs that are listed are those of the rows that are not terminal. -/
theorem mem_listUnfinished (h : Mirrors q) :
    job ∈ listUnfinished q.store ↔ ∃ id, q.row id = some job ∧ job.status.isTerminal = false := by
  unfold listUnfinished Queue.row
  rw [List.mem_map]
  constructor
  · rintro ⟨⟨id, row⟩, hrow, rfl⟩
    obtain ⟨hmem, hstate⟩ := mem_selected.mp hrow
    have hget : Table.get id q.store = some row := (Table.mem_iff_get h.rows).mp hmem
    obtain ⟨job, createdAt, now, rfl, rfl, hbound⟩ := h.written id row hget
    refine ⟨job.id, by rw [hget]; rfl, ?_⟩
    rw [toJob_ofJob hbound]
    exact unfinished_iff.mp hstate
  · rintro ⟨id, hrow, hstate⟩
    obtain ⟨row, hget, rfl⟩ := Option.map_eq_some_iff.mp hrow
    obtain ⟨job, createdAt, now, rfl, rfl, hbound⟩ := h.written id row hget
    rw [toJob_ofJob hbound] at hstate
    exact ⟨(job.id, _), mem_selected.mpr ⟨(Table.mem_iff_get h.rows).mpr hget, unfinished_iff.mpr hstate⟩, rfl⟩

theorem nodup_listUnfinished (h : Mirrors q) : (listUnfinished q.store).Nodup := by
  refine List.Nodup.of_map Job.id ?_
  have hids : (listUnfinished q.store).map Job.id = (selected q.store).map Prod.fst := by
    simp only [listUnfinished, Row.toJob, List.map_map, Function.comp_def]
  rw [hids]
  exact nodup_selected h.rows

theorem mem_unfinished (h : Mirrors q) :
    job ∈ q.unfinished ↔ ∃ id, q.get id = some job ∧ job.status.isTerminal = false := by
  unfold Queue.unfinished Queue.get
  simp only [List.mem_filter, List.mem_map, Prod.exists, Option.map_eq_some_iff, Table.mem_iff_get h.entries]
  constructor
  · rintro ⟨⟨id, entry, hget, rfl⟩, hstate⟩
    exact ⟨id, ⟨entry, hget, rfl⟩, by simpa using hstate⟩
  · rintro ⟨id, ⟨entry, hget, rfl⟩, hstate⟩
    exact ⟨⟨id, entry, hget, rfl⟩, by simpa using hstate⟩

theorem nodup_unfinished (h : Mirrors q) : q.unfinished.Nodup := by
  refine List.Nodup.filter _ (List.Nodup.of_map Job.id ?_)
  have hids : (q.inner.map fun row => row.2.job).map Job.id = q.inner.map Prod.fst := by
    rw [List.map_map]
    refine List.map_congr_left fun row hrow => ?_
    have hget : Table.get row.1 q.inner = some row.2 := (Table.mem_iff_get h.entries).mp hrow
    exact (h.fits row.1 row.2.job (by simp [Queue.get, hget])).1
  rw [hids]
  exact h.entries

end Mirrors

/-- **The durable queue mirrors the registry**: after any operations, of which none is under way any more, the jobs
that `list_unfinished` returns are those of the registry that are not terminal. -/
theorem queue_mirrors (as : List Action) (q : Queue) (hrun : Lts.run Queue.step {} as = some q)
    (hdone : q.writers = []) : (listUnfinished q.store).Perm q.unfinished := by
  have hfree : Lts.Along Queue.step (fun _ _ => True) {} as := Lts.along_of_forall (fun _ _ _ => trivial) _
  have h : Mirrors q := (Lts.Reach.of_run hfree hrun).inv mirrors_empty fun _ _ _ h _ hs => mirrors_step h hs
  refine (List.perm_ext_iff_of_nodup (nodup_listUnfinished h) (nodup_unfinished h)).mpr fun job => ?_
  rw [mem_listUnfinished h, mem_unfinished h]
  refine exists_congr fun id => ?_
  rw [h.agree id (by simp [Queue.Free, hdone])]

/-- Two jobs are created, one runs while the other is created and completes. -/
def twoJobs : List Action :=
  [.create ['a'] .process ['1'], .finish ['a'] ['1'], .create ['b'] .reprocess ['2'],
    .update ['a'] ({ · with status := .running, meetingId := some ['m'] }), .finish ['b'] ['3'], .finish ['a'] ['3'],
    .update ['b'] ({ · with status := .completed, stage := .done }), .finish ['b'] ['4']]

theorem twoJobs_mirrored : ∃ q, Lts.run Queue.step {} twoJobs = some q ∧ (listUnfinished q.store).Perm q.unfinished :=
  ⟨_, rfl, queue_mirrors twoJobs _ rfl rfl⟩

end Notely.Engine.DurableQueue
