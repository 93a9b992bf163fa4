import Notely.Engine.Domain
import Notely.Lib.Table

/-! # Jobs

`pipeline/jobs.rs`, `pipeline/job_store.rs`. A job is registered in memory, with the flag that cancels
it, and mirrored to a table on disk; a row that could not be written stays as it was. -/

namespace Notely.Engine.Jobs

open Notely.Lib Notely.Lib.Strings Notely.Engine.Domain

/-- `JobId`. -/
abbrev JobId := Text

/-- `JobKind`. -/
inductive JobKind
  | process
  | reprocess
  | embedding
  deriving DecidableEq

/-- `JobStatus`. -/
inductive JobStatus
  | queued
  | running
  | completed
  | failed
  | cancelled
  deriving DecidableEq

/-- `is_terminal`. -/
def JobStatus.isTerminal : JobStatus → Bool
  | .completed | .failed | .cancelled => true
  | .queued | .running => false

/-- `JobStage`. -/
inductive JobStage
  | created
  | mediaProcessing
  | transcription
  | chunking
  | extraction
  | synthesis
  | validation
  | rendering
  | storing
  | done
  deriving DecidableEq

/-! The names serde gives the enumerations. -/

def JobKind.token : JobKind → Text
  | .process => "process".toList
  | .reprocess => "reprocess".toList
  | .embedding => "embedding".toList

def JobStatus.token : JobStatus → Text
  | .queued => "queued".toList
  | .running => "running".toList
  | .completed => "completed".toList
  | .failed => "failed".toList
  | .cancelled => "cancelled".toList

def JobStage.token : JobStage → Text
  | .created => "created".toList
  | .mediaProcessing => "media_processing".toList
  | .transcription => "transcription".toList
  | .chunking => "chunking".toList
  | .extraction => "extraction".toList
  | .synthesis => "synthesis".toList
  | .validation => "validation".toList
  | .rendering => "rendering".toList
  | .storing => "storing".toList
  | .done => "done".toList

/-- `Job`. -/
structure Job where
  id : JobId
  kind : JobKind
  status : JobStatus := .queued
  stage : JobStage := .created
  meetingId : Option MeetingId := none
  error : Option Text := none
  attempts : ℕ := 0
  deriving DecidableEq

/-- `Job::new`. -/
def Job.new (id : JobId) (kind : JobKind) : Job := { id := id, kind := kind }

/-- A job requeued by `recover_jobs`. -/
def Job.resumed (job : Job) : Job :=
  { job with attempts := job.attempts + 1, status := .queued, kind := .reprocess }

/-- `Entry`: the job and its `CancelFlag`. -/
structure Entry where
  job : Job
  cancelled : Bool := false
  deriving DecidableEq

/-- `JobRegistry`: the entries, and the rows of the `JobStore`. -/
structure JobRegistry where
  inner : List (JobId × Entry) := []
  store : List (JobId × Job) := []
  deriving DecidableEq

namespace JobRegistry

/-- `persist`, which fails or not. -/
def persist (r : JobRegistry) (job : Job) (written : Bool) : JobRegistry :=
  if written then { r with store := Table.put job.id job r.store } else r

/-- A job registered with a flag of its own: `create` with a new job, `reinsert` with a recovered one. -/
def reinsert (r : JobRegistry) (job : Job) (written : Bool) : JobRegistry :=
  let r := r.persist job written
  { r with inner := Table.put job.id ⟨job, false⟩ r.inner }

/-- `create`, of the id it draws. -/
def create (r : JobRegistry) (kind : JobKind) (id : JobId) (written : Bool) : JobRegistry :=
  r.reinsert (Job.new id kind) written

/-- `get`. -/
def get (r : JobRegistry) (id : JobId) : Option Job := (Table.get id r.inner).map Entry.job

/-- The flag of a job. -/
def isCancelled (r : JobRegistry) (id : JobId) : Bool := (Table.get id r.inner).any Entry.cancelled

/-- `request_cancel`: false if the job is unknown. -/
def requestCancel (r : JobRegistry) (id : JobId) : Bool × JobRegistry :=
  match Table.get id r.inner with
  | some entry => (true, { r with inner := Table.put id { entry with cancelled := true } r.inner })
  | none => (false, r)

/-- `update`. -/
def update (r : JobRegistry) (id : JobId) (f : Job → Job) (written : Bool) : JobRegistry :=
  match Table.get id r.inner with
  | some entry =>
    { r with inner := Table.put id { entry with job := f entry.job } r.inner }.persist (f entry.job) written
  | none => r

end JobRegistry

section Laws
variable {r : JobRegistry} {id id' : JobId} {f : Job → Job} {written : Bool} {job : Job}

@[simp] theorem inner_persist : (r.persist job written).inner = r.inner := by
  unfold JobRegistry.persist
  split_ifs <;> rfl

@[simp] theorem get_reinsert_self : (r.reinsert job written).get job.id = some job := by
  simp [JobRegistry.get, JobRegistry.reinsert]

@[simp] theorem isCancelled_reinsert : (r.reinsert job written).isCancelled job.id = false := by
  simp [JobRegistry.isCancelled, JobRegistry.reinsert]

@[simp] theorem get_update_self : (r.update id f written).get id = (r.get id).map f := by
  unfold JobRegistry.update JobRegistry.get
  cases h : Table.get id r.inner with
  | none => simp [h]
  | some entry => simp

@[simp] theorem isCancelled_update :
    (r.update id f written).isCancelled id' = r.isCancelled id' := by
  unfold JobRegistry.update JobRegistry.isCancelled
  cases hg : Table.get id r.inner with
  | none => rfl
  | some entry =>
    by_cases h : id' = id
    · subst h
      simp [hg]
    · simp [h]

@[simp] theorem get_requestCancel : (r.requestCancel id).2.get id' = r.get id' := by
  unfold JobRegistry.requestCancel JobRegistry.get
  cases hg : Table.get id r.inner with
  | none => rfl
  | some entry =>
    by_cases h : id' = id
    · subst h
      simp [hg]
    · simp [h]

theorem isCancelled_requestCancel (h : (r.get id).isSome) : (r.requestCancel id).2.isCancelled id := by
  unfold JobRegistry.get at h
  unfold JobRegistry.requestCancel JobRegistry.isCancelled
  cases hg : Table.get id r.inner with
  | none => simp [hg] at h
  | some entry => simp

end Laws

end Notely.Engine.Jobs
