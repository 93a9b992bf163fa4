import Notely.Engine.Custody

/-! # Recovery of jobs

`recover_jobs` over any number of lives of the process, with the embedding passes of `maybe_spawn_embedding`
beside the runs. An attempt is counted in the row of a job before the job is run again; no run and no pass
changes the count, and the process that starts next reads it back.

* `step`: the engine with its embedding pass; `requeued`: the jobs that an action requeues.
* `books`: the monitor of what a run does to its job; `program_books`.
* `Ledger`: what the records of the jobs say of the jobs requeued so far, and its operations.
* `inv_step`: an action keeps the records in order; `terminal_step`: a job that is terminal stays so.
* `recovery_bounded`: no job is requeued more than `maxJobAttempts` times, in any run. -/

namespace Notely.Engine.JobRecovery

open Notely.Lib Notely.Lib.Programs Notely.Lib.Monitors Notely.Engine.Domain Notely.Engine.Jobs
open Notely.Engine.Preprocess Notely.Engine.Orchestrator Notely.Engine.Analysis Notely.Engine.Answers
open Notely.Engine.RunPhases Notely.Engine.Pool Notely.Engine.Custody
open Notely.Lib.Strings (Text)

/-! ### The engine with its embedding pass -/

/-- How far the embedding pass under way has come, if there is one (`embedding_in_progress`). -/
inductive Pass
  | idle
  | counting
  | created (jobId : JobId)
  | running (jobId : JobId)
  deriving DecidableEq

/-- The job of a pass. -/
def Pass.jobs : Pass → List JobId
  | .idle | .counting => []
  | .created jobId | .running jobId => [jobId]

/-- A pass does not outlive the process. -/
def Pass.after : Pool.Action → Pass → Pass
  | .crash _ _, _ => .idle
  | _, pass => pass

/-- The engine and its embedding pass. -/
structure System where
  engine : EngineState := {}
  pass : Pass := .idle

/-- An action of the engine, or a step of the embedding pass: a search starts it, it counts what is pending,
and its job is created, set running, and closed with the outcome. -/
inductive Action
  | engine (a : Pool.Action)
  | embed
  | counted (pending : ℕ) (jobId : JobId) (written : Bool)
  | embedding (written : Bool)
  | embedded (result : Except Text ℕ) (written : Bool)

/-- What the outcome of a pass makes of its job. -/
def embeddingOutcome : Except Text ℕ → Job → Job
  | .ok _, job => { job with status := .completed, stage := .done }
  | .error e, job => { job with status := .failed, error := some e }

/-- The records of the jobs changed. -/
def System.record (s : System) (f : JobRegistry → JobRegistry) (pass : Pass) : System where
  engine := { s.engine with world := { s.engine.world with jobs := f s.engine.world.jobs } }
  pass := pass

/-- The job of a pass, with a new id. -/
def System.enroll (s : System) (jobId : JobId) (written : Bool) : System where
  engine := { s.engine with
    world := { s.engine.world with jobs := s.engine.world.jobs.create .embedding jobId written }
    issued := jobId :: s.engine.issued }
  pass := .created jobId

/-- **One action.** A pass is only started when none is under way. -/
def step (cfg : Config) (s : System) : Action → Option System
  | .engine a => (Pool.step cfg s.engine a).map fun e => ⟨e, s.pass.after a⟩
  | .embed => if s.engine.recovering.isEmpty ∧ s.pass = .idle then some { s with pass := .counting } else none
  | .counted pending jobId written =>
    match s.pass with
    | .counting =>
      if pending = 0 then some { s with pass := .idle }
      else if s.engine.issued.contains jobId then none
      else some (s.enroll jobId written)
    | _ => none
  | .embedding written =>
    match s.pass with
    | .created jobId =>
      some (s.record (·.update jobId (fun j => { j with status := .running }) written) (.running jobId))
    | _ => none
  | .embedded result written =>
    match s.pass with
    | .running jobId => some (s.record (·.update jobId (embeddingOutcome result) written) .idle)
    | _ => none

/-- **The jobs that an action requeues**: those of the tasks that `recover_jobs` starts. -/
def requeued (cfg : Config) (s : System) : Action → List JobId
  | .engine (.recover c) =>
    match s.engine.recovering with
    | .job job :: _ => ((s.engine.recoverJob cfg job c).tasks.drop s.engine.tasks.length).map Running.jobId
    | _ => []
  | _ => []

/-- The durable writes of jobs succeed. -/
def Durable : Action → Prop
  | .engine (.process _ _ written) | .engine (.reprocess _ _ written) => written = true
  | .engine (.step _ c) | .engine (.recover c) => c.written = true
  | .engine (.cancel _) | .engine (.crash _ _) | .embed => True
  | .counted _ _ written | .embedding written | .embedded _ written => written = true

/-! ### What a run does to its job -/

/-- What a run may make of its job: the attempts are not its business, and the job is closed only with the
outcome of the run. -/
structure Keeps (closing : Bool) (f : Job → Job) : Prop where
  id : ∀ job, (f job).id = job.id
  attempts : ∀ job, (f job).attempts = job.attempts
  closed : closing = true → ∀ job, (f job).status.isTerminal = true
  running : closing = false → ∀ job, job.status.isTerminal = false → (f job).status.isTerminal = false

/-- The monitor of a job; its state tells whether the outcome is being applied. -/
def books (jobId : JobId) : Monitor Op Bool where
  permits closing o :=
    match o with
    | .updateJob id f => id = jobId ∧ Keeps closing f
    | _ => True
  next closing o _ :=
    match o with
    | .getJob _ => true
    | _ => closing

section Books
variable {cfg : Config} {jobId : JobId} {meeting : Meeting} {α : Type}

/-- A computation that keeps to the books before the outcome is applied. -/
abbrev InBooks (jobId : JobId) (x : Pipeline α) : Prop :=
  Try (books jobId) x false (fun _ closing => closing = false) fun _ closing => closing = false

theorem keeps_running {f : Job → Job} (hid : ∀ job, (f job).id = job.id)
    (hattempts : ∀ job, (f job).attempts = job.attempts)
    (hstatus : ∀ job, (f job).status = job.status ∨ (f job).status = .running) : Keeps false f := by
  refine ⟨hid, hattempts, fun h => absurd h (by simp), fun _ job hopen => ?_⟩
  rcases hstatus job with h | h
  · rw [h, hopen]
  · rw [h]
    rfl

theorem inBooks_bind {β : Type} {x : Pipeline α} {f : α → Pipeline β} (hx : InBooks jobId x)
    (hf : ∀ a, InBooks jobId (f a)) : InBooks jobId (x >>= f) :=
  try_seq hx hf

theorem inBooks_orFail {ε : Type} {wrap : ε → PipelineError} {r : Except ε α} : InBooks jobId (orFail wrap r) := by
  cases r with
  | ok a => exact try_pure rfl
  | error e => exact try_throw rfl

/-- A change of the job. -/
theorem inBooks_update {f : Job → Job} (h : Keeps false f) : InBooks jobId (op (.updateJob jobId f)) :=
  try_lift ⟨rfl, h⟩ fun _ => rfl

theorem inBooks_stage {st : JobStage} : InBooks jobId (stage jobId st) :=
  inBooks_update (keeps_running (fun _ => rfl) (fun _ => rfl) fun _ => Or.inl rfl)

theorem inBooks_send {event : Event} : InBooks jobId (op (.send event)) := try_lift trivial fun _ => rfl

theorem inBooks_checkCancel : InBooks jobId (checkCancel jobId) := by
  refine inBooks_bind (try_lift trivial fun _ => rfl) fun raised => ?_
  cases raised with
  | true => exact try_throw rfl
  | false => exact try_pure rfl

theorem inBooks_validateStage {ir : MeetingIr} : InBooks jobId (validateStage jobId ir) :=
  inBooks_bind inBooks_stage fun _ => inBooks_bind inBooks_send fun _ =>
    inBooks_bind inBooks_orFail fun _ => inBooks_send

theorem inBooks_extractFrom {context : AnalysisContext} {total : ℕ} (chunks : List Chunk) (i : ℕ) :
    InBooks jobId (extractFrom jobId context total i chunks) := by
  induction chunks generalizing i with
  | nil => exact try_pure rfl
  | cons chunk chunks ih =>
    refine inBooks_bind inBooks_checkCancel fun _ => inBooks_bind (try_lift trivial fun _ => rfl) fun found => ?_
    refine inBooks_bind inBooks_orFail fun _ => inBooks_bind inBooks_send fun _ => ?_
    exact inBooks_bind (ih (i + 1)) fun _ => try_pure rfl

theorem inBooks_analyze {prepared : PreparedTranscript} {context : AnalysisContext} :
    InBooks jobId (Orchestrator.analyze jobId prepared context) := by
  unfold Orchestrator.analyze
  dsimp only
  split_ifs
  · exact inBooks_bind inBooks_validateStage fun _ => try_pure rfl
  · refine inBooks_bind inBooks_stage fun _ => inBooks_bind inBooks_send fun _ => ?_
    refine inBooks_bind (inBooks_extractFrom _ 0) fun findings => inBooks_bind inBooks_send fun _ => ?_
    refine inBooks_bind inBooks_checkCancel fun _ => inBooks_bind inBooks_stage fun _ => ?_
    refine inBooks_bind inBooks_send fun _ => inBooks_bind (try_lift trivial fun _ => rfl) fun r => ?_
    refine inBooks_bind inBooks_orFail fun ir => inBooks_bind inBooks_send fun _ => ?_
    refine inBooks_bind inBooks_checkCancel fun _ => inBooks_bind inBooks_validateStage fun _ => try_pure rfl

theorem inBooks_mediaAndAsr {path : Text} : InBooks jobId (mediaAndAsr cfg jobId path) := by
  refine inBooks_bind inBooks_stage fun _ => inBooks_bind inBooks_send fun _ => ?_
  refine inBooks_bind (try_lift trivial fun _ => rfl) fun r => inBooks_bind inBooks_orFail fun prepared => ?_
  refine inBooks_bind inBooks_send fun _ => inBooks_bind inBooks_checkCancel fun _ => ?_
  refine inBooks_bind inBooks_stage fun _ => inBooks_bind inBooks_send fun _ => ?_
  refine inBooks_bind (try_lift trivial fun _ => rfl) fun r => inBooks_bind inBooks_orFail fun t => ?_
  exact inBooks_bind inBooks_send fun _ => try_pure rfl

theorem inBooks_enrich {transcript : Transcript} {context : AnalysisContext} :
    InBooks jobId (enrich cfg jobId meeting transcript context) := by
  refine inBooks_bind inBooks_stage fun _ => inBooks_bind inBooks_send fun _ => inBooks_bind inBooks_send fun _ => ?_
  refine inBooks_bind inBooks_checkCancel fun _ => inBooks_bind inBooks_analyze fun ir => ?_
  refine inBooks_bind (try_lift trivial fun _ => rfl) fun r => inBooks_bind inBooks_orFail fun _ => ?_
  refine inBooks_bind inBooks_stage fun _ => inBooks_bind inBooks_send fun _ => inBooks_bind inBooks_send fun _ => ?_
  refine inBooks_bind inBooks_stage fun _ => inBooks_bind (try_lift trivial fun _ => rfl) fun r => ?_
  refine inBooks_bind inBooks_orFail fun _ => inBooks_bind (try_lift trivial fun _ => rfl) fun r => ?_
  exact inBooks_orFail

theorem inBooks_persistStatus {id : MeetingId} {status : ProcessingStatus} : InBooks jobId (persistStatus id status) :=
  inBooks_bind (try_lift trivial fun _ => rfl) fun _ => try_pure rfl

theorem inBooks_rawTranscriptOf {input : MeetingInput} : InBooks jobId (rawTranscriptOf cfg jobId input) := by
  cases input with
  | transcript title t => exact try_pure rfl
  | audio title path => exact inBooks_mediaAndAsr

theorem inBooks_run {input : MeetingInput} : InBooks jobId (run cfg jobId input) := by
  refine inBooks_bind (inBooks_update (keeps_running (fun _ => rfl) (fun _ => rfl) fun _ => Or.inr rfl)) fun _ => ?_
  refine inBooks_bind (try_lift trivial fun _ => rfl) fun drawn => ?_
  refine inBooks_bind (try_lift trivial fun _ => rfl) fun r => inBooks_bind inBooks_orFail fun _ => ?_
  refine inBooks_bind (inBooks_update (keeps_running (fun _ => rfl) (fun _ => rfl) fun _ => Or.inl rfl)) fun _ => ?_
  refine inBooks_bind inBooks_send fun _ => inBooks_bind inBooks_checkCancel fun _ => ?_
  refine inBooks_bind inBooks_rawTranscriptOf fun t => inBooks_bind (try_lift trivial fun _ => rfl) fun r => ?_
  refine inBooks_bind inBooks_orFail fun _ => inBooks_bind inBooks_persistStatus fun _ => ?_
  refine inBooks_bind inBooks_checkCancel fun _ => inBooks_bind inBooks_enrich fun _ => ?_
  exact try_pure rfl

theorem inBooks_rerun {id : MeetingId} : InBooks jobId (rerun cfg jobId id) := by
  refine inBooks_bind (inBooks_update (keeps_running (fun _ => rfl) (fun _ => rfl) fun _ => Or.inr rfl)) fun _ => ?_
  refine inBooks_bind (try_lift trivial fun _ => rfl) fun r => inBooks_bind inBooks_orFail fun found => ?_
  cases found with
  | none => exact try_throw rfl
  | some meeting =>
    refine inBooks_bind (try_lift trivial fun _ => rfl) fun r => inBooks_bind inBooks_orFail fun loaded => ?_
    cases loaded with
    | none => exact try_throw rfl
    | some transcript =>
      refine inBooks_bind inBooks_persistStatus fun _ => inBooks_bind inBooks_send fun _ => ?_
      refine inBooks_bind inBooks_checkCancel fun _ => inBooks_bind inBooks_enrich fun _ => ?_
      exact try_pure rfl

/-- The outcome of a run closes its job. -/
theorem keeps_closed {f : Job → Job} (hid : ∀ job, (f job).id = job.id)
    (hattempts : ∀ job, (f job).attempts = job.attempts) (hstatus : ∀ job, (f job).status.isTerminal = true) :
    Keeps true f :=
  ⟨hid, hattempts, fun _ => hstatus, fun h => absurd h (by simp)⟩

theorem reportFailure_books {meetingId : Option MeetingId} {f : Job → Job} {status : ProcessingStatus}
    {message : Text} (hf : Keeps true f) :
    Safe (books jobId) (reportFailure jobId meetingId f status message) true fun _ _ => True := by
  refine safe_bind (safe_perform ⟨rfl, hf⟩ fun _ => ?_)
  cases meetingId with
  | none => exact safe_perform trivial fun _ => trivial
  | some id => exact safe_bind (safe_perform trivial fun _ => safe_perform trivial fun _ => trivial)

theorem finalize_books {result : Except PipelineError MeetingId} :
    Safe (books jobId) (finalize jobId result) false fun _ _ => True := by
  refine safe_bind (safe_perform trivial fun job => ?_)
  cases result with
  | ok id =>
    refine safe_bind (safe_bind (safe_perform ⟨rfl, ?_⟩ fun _ => ?_))
    · exact keeps_closed (fun _ => rfl) (fun _ => rfl) fun _ => rfl
    · exact safe_bind (safe_perform trivial fun _ => safe_perform trivial fun _ => trivial)
  | error err =>
    have hfail (meetingId : Option MeetingId) (f : Job → Job) (status : ProcessingStatus) (message : Text)
        (hf : Keeps true f) :
        Safe (books jobId) (reportFailure jobId meetingId f status message >>= fun _ => pure (Except.error err)) true
          fun (_ : Except PipelineError MeetingId) _ => True :=
      safe_bind ((reportFailure_books hf).mono fun _ _ _ => trivial)
    cases err with
    | _ => exact hfail _ _ _ _ (keeps_closed (fun _ => rfl) (fun _ => rfl) fun _ => rfl)

/-- **Both kinds of run keep to the books.** -/
theorem program_books (cfg : Config) (jobId : JobId) (source : Source) :
    Safe (books jobId) (source.program cfg jobId) false fun _ _ => True := by
  cases source with
  | process input =>
    refine safe_bind (Safe.mono inBooks_run fun r closing h => ?_)
    have hclosing : closing = false := by cases r <;> exact h
    rw [hclosing]
    exact finalize_books
  | reprocess id =>
    refine safe_bind (Safe.mono inBooks_rerun fun r closing h => ?_)
    have hclosing : closing = false := by cases r <;> exact h
    rw [hclosing]
    exact finalize_books

end Books

/-! ### The records of jobs -/

/-- The row of a job, and whether its status is terminal. -/
def Stands (r : JobRegistry) (id : JobId) (terminal : Bool) : Prop :=
  ∃ row, Table.get id r.store = some row ∧ row.status.isTerminal = terminal

/-- The rows count, each in its attempts, how often its job is among those requeued. -/
structure Rows (store : List (JobId × Job)) (l : List JobId) : Prop where
  keyed : ∀ id row, Table.get id store = some row → row.id = id
  nodup : (store.map Prod.fst).Nodup
  counted : ∀ id, ((Table.get id store).map Job.attempts).getD 0 = l.count id
  bounded : ∀ id row, Table.get id store = some row → row.attempts ≤ maxJobAttempts

/-- **What the records say**: the entry of a job that is worked on is its row, and a job that waits for
`recover_jobs` is as it was listed. -/
structure Ledger (r : JobRegistry) (waiting : List Job) (working : List JobId) (l : List JobId) : Prop where
  rows : Rows r.store l
  mirrors : ∀ id ∈ working, ∃ entry, Table.get id r.inner = some entry ∧ Table.get id r.store = some entry.job
  listed : ∀ job ∈ waiting, Table.get job.id r.store = some job ∧ job.status.isTerminal = false
  apart : (working ++ waiting.map Job.id).Nodup

section Ledger
variable {r : JobRegistry} {waiting : List Job} {working working' l l' : List JobId} {id id' : JobId} {job : Job}
  {f : Job → Job} {terminal : Bool}

theorem Rows.put {store : List (JobId × Job)} (h : Rows store l) (hcount : job.attempts = l'.count job.id)
    (hl : ∀ id, id ≠ job.id → l'.count id = l.count id) (hbound : job.attempts ≤ maxJobAttempts) :
    Rows (Table.put job.id job store) l' := by
  refine ⟨fun id row hget => ?_, Table.nodup_keys_put h.nodup, fun id => ?_, fun id row hget => ?_⟩
  · by_cases hid : id = job.id
    · subst hid
      rw [Table.get_put_self] at hget
      rw [← Option.some.inj hget]
    · rw [Table.get_put_of_ne hid] at hget
      exact h.keyed id row hget
  · by_cases hid : id = job.id
    · subst hid
      rw [Table.get_put_self]
      exact hcount
    · rw [Table.get_put_of_ne hid, hl id hid]
      exact h.counted id
  · by_cases hid : id = job.id
    · subst hid
      rw [Table.get_put_self] at hget
      exact Option.some.inj hget ▸ hbound
    · rw [Table.get_put_of_ne hid] at hget
      exact h.bounded id row hget

/-- A row replaced by one with as many attempts. -/
theorem Rows.replace {store : List (JobId × Job)} (h : Rows store l) {row : Job}
    (hget : Table.get job.id store = some row) (hattempts : job.attempts = row.attempts) :
    Rows (Table.put job.id job store) l := by
  refine h.put ?_ (fun _ _ => rfl) (hattempts ▸ h.bounded job.id row hget)
  rw [← h.counted job.id, hget, hattempts]
  rfl

/-- The jobs that wait are as they were listed, if another row is written. -/
theorem Ledger.listed_put (h : Ledger r waiting working l) (hid : id ∉ waiting.map Job.id) :
    ∀ job' ∈ waiting, Table.get job'.id (Table.put id job r.store) = some job' ∧ job'.status.isTerminal = false := by
  intro job' hjob'
  have hne : job'.id ≠ id := fun heq => hid (heq ▸ List.mem_map_of_mem hjob')
  rw [Table.get_put_of_ne hne]
  exact h.listed job' hjob'

theorem Ledger.not_waiting (h : Ledger r waiting working l) (hid : id ∈ working) : id ∉ waiting.map Job.id :=
  fun hwait => (List.nodup_append.mp h.apart).2.2 id hid id hwait rfl

theorem Ledger.not_working (h : Ledger r (job :: waiting) working l) : job.id ∉ working :=
  fun hid => h.not_waiting hid List.mem_cons_self

/-- An id without a row is of no job. -/
theorem Ledger.fresh (h : Ledger r waiting working l) (hnone : Table.get id r.store = none) :
    id ∉ working ∧ id ∉ waiting.map Job.id := by
  constructor
  · intro hid
    obtain ⟨entry, -, hget⟩ := h.mirrors id hid
    rw [hnone] at hget
    cases hget
  · intro hid
    obtain ⟨job, hjob, rfl⟩ := List.mem_map.mp hid
    rw [(h.listed job hjob).1] at hnone
    cases hnone

/-- A job registered. -/
theorem Ledger.insert (h : Ledger r waiting working l) (hrows : Rows (Table.put job.id job r.store) l')
    (hwait : job.id ∉ waiting.map Job.id) (hwork : job.id ∉ working)
    (hperm : working'.Perm (job.id :: working)) : Ledger (r.reinsert job true) waiting working' l' := by
  have hstore : (r.reinsert job true).store = Table.put job.id job r.store := rfl
  refine ⟨hrows, fun id hid => ?_, h.listed_put hwait, ?_⟩
  · by_cases heq : id = job.id
    · subst heq
      exact ⟨⟨job, false⟩, inner_reinsert_self, by rw [hstore, Table.get_put_self]⟩
    · have hold : id ∈ working := (List.mem_cons.mp (hperm.mem_iff.mp hid)).resolve_left heq
      rw [inner_reinsert_of_ne heq, hstore, Table.get_put_of_ne heq]
      exact h.mirrors id hold
  · rw [(hperm.append_right _).nodup_iff, List.cons_append, List.nodup_cons]
    exact ⟨by simp [hwork, hwait], h.apart⟩

/-- `create`. -/
theorem Ledger.create (h : Ledger r waiting working l) {kind : JobKind} (hnone : Table.get id r.store = none)
    (hperm : working'.Perm (id :: working)) : Ledger (r.create kind id true) waiting working' l := by
  obtain ⟨hwork, hwait⟩ := h.fresh hnone
  have hcount : ((none : Option Job).map Job.attempts).getD 0 = l.count id := hnone ▸ h.rows.counted id
  have hrows : Rows (Table.put (Job.new id kind).id (Job.new id kind) r.store) l :=
    h.rows.put hcount (fun _ _ => rfl) (Nat.zero_le _)
  exact h.insert hrows hwait hwork hperm

/-- The first of the waiting jobs is taken out of them. -/
theorem Ledger.tail (h : Ledger r (job :: waiting) working l) :
    Ledger r waiting working l ∧ job.id ∉ waiting.map Job.id :=
  ⟨⟨h.rows, h.mirrors, fun j hj => h.listed j (List.mem_cons_of_mem _ hj),
    h.apart.sublist ((List.sublist_cons_self _ _).append_left _)⟩,
    (List.nodup_cons.mp (List.nodup_append.mp h.apart).2.1).1⟩

/-- `reinsert`: the attempt is counted. -/
theorem Ledger.resume (h : Ledger r (job :: waiting) working l) (hbudget : job.attempts < maxJobAttempts)
    (hperm : working'.Perm (job.id :: working)) :
    Ledger (r.reinsert job.resumed true) waiting working' (l ++ [job.id]) := by
  obtain ⟨hget, -⟩ := h.listed job List.mem_cons_self
  obtain ⟨hrest, hwait⟩ := h.tail
  have hcount : job.resumed.attempts = (l ++ [job.id]).count job.id := by
    have hold := h.rows.counted job.id
    rw [hget] at hold
    have hattempts : job.attempts = l.count job.id := hold
    simp [Job.resumed, hattempts]
  have hrows : Rows (Table.put job.resumed.id job.resumed r.store) (l ++ [job.id]) := by
    refine h.rows.put hcount (fun id hid => ?_) hbudget
    have hne : job.id ≠ id := Ne.symm hid
    simp [hne]
  exact hrest.insert hrows hwait h.not_working hperm

/-- A job closed. -/
theorem Ledger.close (h : Ledger r (job :: waiting) working l) {error : Text} :
    Ledger (r.persist { job with status := .failed, error := some error } true) waiting working l := by
  obtain ⟨hget, -⟩ := h.listed job List.mem_cons_self
  obtain ⟨hrest, hwait⟩ := h.tail
  have hrows : Rows (Table.put job.id { job with status := .failed, error := some error } r.store) l :=
    h.rows.replace hget rfl
  refine ⟨hrows, fun id hid => ?_, hrest.listed_put hwait, hrest.apart⟩
  have hne : id ≠ job.id := fun heq => h.not_working (heq ▸ hid)
  rw [inner_persist]
  exact (Table.get_put_of_ne hne).symm ▸ h.mirrors id hid

/-- The row of a job that is changed, and its entry. -/
theorem Ledger.updated (h : Ledger r waiting working l) (hid : id ∈ working) (hf : ∀ job, (f job).id = job.id) :
    ∃ entry : Entry, Table.get id r.store = some entry.job ∧ entry.job.id = id ∧
      (r.update id f true).inner = Table.put id { entry with job := f entry.job } r.inner ∧
      (r.update id f true).store = Table.put id (f entry.job) r.store := by
  obtain ⟨entry, hinner, hstore⟩ := h.mirrors id hid
  have hkey : entry.job.id = id := h.rows.keyed id _ hstore
  refine ⟨entry, hstore, hkey, ?_, ?_⟩
  · simp [JobRegistry.update, hinner]
  · simp [JobRegistry.update, hinner, JobRegistry.persist, hf, hkey]

/-- `update`. -/
theorem Ledger.update (h : Ledger r waiting working l) (hid : id ∈ working) (hf : ∀ job, (f job).id = job.id)
    (hattempts : ∀ job, (f job).attempts = job.attempts) : Ledger (r.update id f true) waiting working l := by
  obtain ⟨entry, hget, hkey, hinner, hstore⟩ := h.updated hid hf
  have hkey' : (f entry.job).id = id := (hf _).trans hkey
  refine ⟨?_, fun id' hid' => ?_, ?_, h.apart⟩
  · rw [hstore, ← hkey']
    exact h.rows.replace (hkey'.symm ▸ hget) (hattempts _)
  · rw [hinner, hstore]
    by_cases heq : id' = id
    · subst heq
      exact ⟨{ entry with job := f entry.job }, Table.get_put_self, Table.get_put_self⟩
    · rw [Table.get_put_of_ne heq, Table.get_put_of_ne heq]
      exact h.mirrors id' hid'
  · rw [hstore]
    exact h.listed_put (h.not_waiting hid)

theorem Ledger.requestCancel (h : Ledger r waiting working l) : Ledger (r.requestCancel id).2 waiting working l := by
  have hstore : (r.requestCancel id).2.store = r.store := store_requestCancel
  refine ⟨by rw [hstore]; exact h.rows, fun id' hid' => ?_, by rw [hstore]; exact h.listed, h.apart⟩
  obtain ⟨entry, hinner, hget⟩ := h.mirrors id' hid'
  rw [hstore]
  have hjob : (r.requestCancel id).2.get id' = some entry.job := by
    rw [get_requestCancel]
    simp [JobRegistry.get, hinner]
  obtain ⟨entry', hinner', heq⟩ := Option.map_eq_some_iff.mp hjob
  exact ⟨entry', hinner', heq ▸ hget⟩

/-- **The process dies**: the rows are left, and the jobs that are listed wait. -/
theorem Ledger.crash (h : Ledger r waiting working l) {w : World} (hw : w.jobs.store = r.store)
    {inner : List (JobId × Entry)} : Ledger { r with inner := inner } (listUnfinished w) [] l := by
  have hlisted (job : Job) (hjob : job ∈ listUnfinished w) :
      Table.get job.id r.store = some job ∧ job.status.isTerminal = false := by
    unfold listUnfinished at hjob
    obtain ⟨hmem, hstatus⟩ := List.mem_filter.mp hjob
    obtain ⟨⟨id, row⟩, hrow, rfl⟩ := List.mem_map.mp hmem
    rw [hw] at hrow
    have hget : Table.get id r.store = some row := (Table.mem_iff_get h.rows.nodup).mp hrow
    obtain rfl : row.id = id := h.rows.keyed id row hget
    refine ⟨hget, ?_⟩
    have hopen : row.status = .queued ∨ row.status = .running := by simpa using hstatus
    rcases hopen with heq | heq <;> rw [heq] <;> rfl
  refine ⟨h.rows, fun id hid => absurd hid (List.not_mem_nil), hlisted, ?_⟩
  have hkeys : r.store.map (fun row => row.2.id) = r.store.map Prod.fst := by
    refine List.map_congr_left fun row hrow => ?_
    exact h.rows.keyed row.1 row.2 ((Table.mem_iff_get h.rows.nodup).mp hrow)
  have hnodup : ((w.jobs.store.map Prod.snd).map Job.id).Nodup := by
    rw [hw, List.map_map]
    exact hkeys ▸ h.rows.nodup
  exact hnodup.sublist (List.filter_sublist.map _)

/-! A job that is terminal stays so, and one that is not changes only in its own row. -/

theorem stands_put_of_ne {store : List (JobId × Job)} (hid : id ≠ id')
    (h : ∃ row, Table.get id store = some row ∧ row.status.isTerminal = terminal) :
    ∃ row, Table.get id (Table.put id' job store) = some row ∧ row.status.isTerminal = terminal := by
  rwa [Table.get_put_of_ne hid]

theorem Ledger.stands_update (h : Ledger r waiting working l) (hid : id ∈ working) (hf : ∀ job, (f job).id = job.id)
    (hsame : id' = id → ∀ job, job.status.isTerminal = terminal → (f job).status.isTerminal = terminal)
    (hstands : Stands r id' terminal) : Stands (r.update id f true) id' terminal := by
  obtain ⟨entry, hget, -, -, hstore⟩ := h.updated hid hf
  obtain ⟨row, hrow, hterminal⟩ := hstands
  unfold Stands
  rw [hstore]
  by_cases heq : id' = id
  · subst heq
    rw [hget] at hrow
    rw [Table.get_put_self]
    exact ⟨_, rfl, hsame rfl entry.job (Option.some.inj hrow ▸ hterminal)⟩
  · exact stands_put_of_ne heq ⟨row, hrow, hterminal⟩

end Ledger

/-! ### What an action does to the records -/

/-- **What an action does to the records**, and which jobs it requeues. -/
inductive Change (r : JobRegistry) (waiting : List Job) (working : List JobId) :
    JobRegistry → List Job → List JobId → List JobId → Prop
  | keep {working' : List JobId} (hsub : working'.Sublist working) : Change r waiting working r waiting working' []
  | update {id : JobId} {f : Job → Job} {closing : Bool} {working' : List JobId} (hid : id ∈ working)
      (hf : Keeps closing f) (hopen : closing = false → Stands r id false) (hsub : working'.Sublist working) :
      Change r waiting working (r.update id f true) waiting working' []
  | create {id : JobId} {kind : JobKind} {working' : List JobId} (hnone : Table.get id r.store = none)
      (hperm : working'.Perm (id :: working)) :
      Change r waiting working (r.create kind id true) waiting working' []
  | cancel {id : JobId} : Change r waiting working (r.requestCancel id).2 waiting working []
  | crash {w : World} {waiting' : List Job} (hw : w.jobs.store = r.store)
      (hsub : waiting'.Sublist (listUnfinished w)) :
      Change r waiting working { r with inner := [] } waiting' [] []
  | close {job : Job} {waiting' : List Job} {error : Text} (hq : waiting = job :: waiting') :
      Change r waiting working (r.persist { job with status := .failed, error := some error } true) waiting' working []
  | resume {job : Job} {waiting' : List Job} {working' : List JobId} (hq : waiting = job :: waiting')
      (hbudget : job.attempts < maxJobAttempts) (hperm : working'.Perm (job.id :: working)) :
      Change r waiting working (r.reinsert job.resumed true) waiting' working' [job.id]

section Change
variable {r r' : JobRegistry} {waiting waiting' : List Job} {working working' l q : List JobId} {id : JobId}

theorem Ledger.mono (h : Ledger r waiting working l) (hwait : waiting'.Sublist waiting)
    (hwork : working'.Sublist working) : Ledger r waiting' working' l :=
  ⟨h.rows, fun id hid => h.mirrors id (hwork.subset hid), fun job hjob => h.listed job (hwait.subset hjob),
    h.apart.sublist (hwork.append (hwait.map Job.id))⟩

/-- **The records stay in order**: the count follows the jobs that are requeued. -/
theorem Ledger.change (h : Ledger r waiting working l) (hc : Change r waiting working r' waiting' working' q) :
    Ledger r' waiting' working' (l ++ q) := by
  cases hc with
  | keep hsub =>
    rw [List.append_nil]
    exact h.mono (List.Sublist.refl _) hsub
  | update hid hf hopen hsub =>
    rw [List.append_nil]
    exact (h.update hid hf.id hf.attempts).mono (List.Sublist.refl _) hsub
  | create hnone hperm =>
    rw [List.append_nil]
    exact h.create hnone hperm
  | cancel =>
    rw [List.append_nil]
    exact h.requestCancel
  | crash hw hsub =>
    rw [List.append_nil]
    exact (h.crash hw).mono hsub (List.Sublist.refl _)
  | close hq =>
    subst hq
    rw [List.append_nil]
    exact h.close
  | resume hq hbudget hperm =>
    subst hq
    exact h.resume hbudget hperm

/-- **A job that is terminal** stays so, and is not requeued. -/
theorem Ledger.terminal (h : Ledger r waiting working l) (hc : Change r waiting working r' waiting' working' q)
    (hid : Stands r id true) : Stands r' id true ∧ id ∉ q := by
  have hne {job : Job} {rest : List Job} (hq : waiting = job :: rest) : id ≠ job.id := by
    rintro rfl
    obtain ⟨row, hrow, hterminal⟩ := hid
    obtain ⟨hget, hopen⟩ := h.listed job (by simp [hq])
    rw [hget] at hrow
    rw [Option.some.inj hrow, hterminal] at hopen
    cases hopen
  cases hc with
  | keep hsub => exact ⟨hid, List.not_mem_nil⟩
  | update hwork hf hopen hsub =>
    rename_i id' f closing
    refine ⟨h.stands_update hwork hf.id (fun heq job hjob => ?_) hid, List.not_mem_nil⟩
    cases closing with
    | true => exact hf.closed rfl job
    | false =>
      subst heq
      obtain ⟨row, hrow, hterminal⟩ := hid
      obtain ⟨row', hrow', hrunning⟩ := hopen rfl
      rw [hrow] at hrow'
      rw [← Option.some.inj hrow', hterminal] at hrunning
      cases hrunning
  | create hnone hperm =>
    rename_i id' kind
    have hother : id ≠ id' := by
      rintro rfl
      obtain ⟨row, hrow, -⟩ := hid
      rw [hnone] at hrow
      cases hrow
    exact ⟨stands_put_of_ne hother hid, List.not_mem_nil⟩
  | cancel => exact ⟨by unfold Stands; rw [store_requestCancel]; exact hid, List.not_mem_nil⟩
  | crash hw hsub => exact ⟨hid, List.not_mem_nil⟩
  | close hq =>
    have hother := hne hq
    exact ⟨stands_put_of_ne hother hid, List.not_mem_nil⟩
  | resume hq hbudget hperm =>
    have hother := hne hq
    exact ⟨stands_put_of_ne hother hid, by simpa using hother⟩

end Change

/-! ### The engine -/

/-- The jobs that wait for `recover_jobs`. -/
def waiting (e : EngineState) : List Job :=
  e.recovering.filterMap fun item => match item with
    | .job job => some job
    | .status _ => none

/-- The jobs that are worked on. -/
def working (s : System) : List JobId := s.pass.jobs ++ s.engine.tasks.map Running.jobId

/-- Every task keeps to the books. -/
abbrev KeepsBooks : EngineState → Progresses → Prop :=
  Each fun _ t p => Safe (books t.jobId) t.rest p.closing fun _ _ => True

/-- The job of a task that has not come to its outcome is not terminal. -/
abbrev KeepsOpen (r : JobRegistry) : EngineState → Progresses → Prop :=
  Each fun _ t p => p.closing = false → Stands r t.jobId false

/-- A task that reprocesses a meeting draws none. -/
abbrev Loads : EngineState → Progresses → Prop :=
  Each fun _ t p => ∀ id, t.source = .reprocess id → ∀ meeting, p.phase ≠ .drawn meeting

/-- **The invariant of the engine**, beside that of the records. -/
structure Sound (s : System) (ps : Progresses) : Prop where
  orderly : Orderly s.engine ps
  loads : Loads s.engine ps
  books : KeepsBooks s.engine ps
  tasks : KeepsOpen s.engine.world.jobs s.engine ps
  pass : ∀ id ∈ s.pass.jobs, Stands s.engine.world.jobs id false

/-- The invariant with the jobs requeued so far. -/
def Inv (s : System) (l : List JobId) : Prop :=
  ∃ ps, Sound s ps ∧ Ledger s.engine.world.jobs (waiting s.engine) (working s) l

section Engine
variable {cfg : Config} {s s' : System} {e e' : EngineState} {ps ps' : Progresses} {l : List JobId} {i : ℕ}
  {t : Running} {β : Type} {o : Op β} {k : β → Routine (Except PipelineError MeetingId)} {c : Choice} {id jobId : JobId}
  {closing : Bool} {w : World}

/-- The monitor of the books follows that of the plan. -/
theorem closing_next (jobId : JobId) {source : Source} {p : Progress} {r : β} :
    (next source p o r).closing = (books jobId).next p.closing o r := by
  cases o with
  | isCancelled id =>
    simp only [next, books]
    split_ifs <;> rfl
  | saveMeeting _ | saveTranscript _ _ | saveMeetingIr _ _ | saveMom _ _ | extractAudio _ _ _ | transcribe _ =>
    exact Progress.after_ind (P := fun q => q.closing = p.closing) (fun _ _ => rfl) fun _ _ => rfl
  | getMeeting _ | getTranscript _ =>
    refine Progress.after_ind (P := fun q => q.closing = p.closing) (fun found _ => ?_) fun _ _ => rfl
    cases found <;> rfl
  | _ => rfl

theorem closing_of_next {r : β} (h : (books jobId).next closing o r = false) : closing = false := by
  cases o with
  | getJob id => cases h
  | _ => exact h

theorem written_ne_drawn {ph : Phase} {meeting : Meeting} : ¬ ph.written = .drawn meeting := by
  cases ph <;> simp [Phase.written]

@[simp] theorem capture_eq_drawn {ph : Phase} {meeting : Meeting} :
    ph.capture = .drawn meeting ↔ ph = .drawn meeting := by
  cases ph <;> simp [Phase.capture]

@[simp] theorem analyze_eq_drawn {ph : Phase} {meeting : Meeting} {ir : MeetingIr} :
    ph.analyze ir = .drawn meeting ↔ ph = .drawn meeting := by
  cases ph <;> simp [Phase.analyze]

@[simp] theorem render_eq_drawn {ph : Phase} {meeting : Meeting} :
    ph.render = .drawn meeting ↔ ph = .drawn meeting := by
  cases ph <;> simp [Phase.render]

/-- A meeting is drawn by a run that processes a capture. -/
theorem drawn_next {source : Source} {p : Progress} {r : β} {meeting : Meeting} (hp : permits source jobId p o)
    (h : (next source p o r).phase = .drawn meeting) :
    p.phase = .drawn meeting ∨ ∃ input, source = .process input := by
  rcases phase_next hp (r := r) with heq | ⟨-, hprocess | ⟨loaded, heq⟩⟩ | heq | heq | ⟨ir, heq⟩ | heq
  · exact Or.inl (heq.symm.trans h)
  · exact Or.inr hprocess
  · cases heq.symm.trans h
  · exact absurd (heq.symm.trans h) written_ne_drawn
  · exact Or.inl (capture_eq_drawn.mp (heq.symm.trans h))
  · exact Or.inl (analyze_eq_drawn.mp (heq.symm.trans h))
  · exact Or.inl (render_eq_drawn.mp (heq.symm.trans h))

/-- An operation of a run changes the job of the run, as the books permit it, or none. -/
theorem registry_answer (hp : (books jobId).permits closing o) (hw : c.written = true) :
    (answer w o (c.outcome o)).2.jobs = w.jobs ∨
      ∃ f, Keeps closing f ∧ (answer w o (c.outcome o)).2.jobs = w.jobs.update jobId f true := by
  cases o with
  | updateJob id f =>
    obtain ⟨rfl, hf⟩ := hp
    exact Or.inr ⟨f, hf, congrArg (fun written => w.jobs.update id f written) hw⟩
  | saveMeeting _ | saveTranscript _ _ | saveMeetingIr _ _ | saveMom _ _ | saveProcessingStatus _ _ =>
    exact Or.inl write_jobs
  | getMeeting _ | getTranscript _ => exact Or.inl (congrArg World.jobs read_world)
  | _ => exact Or.inl rfl

theorem jobIds_perform (ht : e.tasks[i]? = some t) :
    (e.perform i t o k c).tasks.map Running.jobId = e.tasks.map Running.jobId := by
  obtain ⟨hi, hget⟩ := List.getElem?_eq_some_iff.mp ht
  refine List.ext_getElem (by simp [EngineState.perform]) fun j hj hj' => ?_
  by_cases hij : i = j
  · subst hij
    simp [EngineState.perform, hget]
  · simp [EngineState.perform, hij]

theorem mem_working (ht : s.engine.tasks[i]? = some t) : t.jobId ∈ working s :=
  List.mem_append_right _ (List.mem_map_of_mem (List.mem_of_getElem? ht))

/-- Two tasks are of two jobs. -/
theorem task_unique {j : ℕ} {t' : Running} (h : Ledger s.engine.world.jobs (waiting s.engine) (working s) l)
    (ht : s.engine.tasks[i]? = some t) (ht' : s.engine.tasks[j]? = some t') (hne : j ≠ i) : t'.jobId ≠ t.jobId := by
  have hnodup : (s.engine.tasks.map Running.jobId).Nodup :=
    (List.nodup_append.mp (List.nodup_append.mp h.apart).1).2.1
  have hmap {m : ℕ} {u : Running} (hu : s.engine.tasks[m]? = some u) :
      (s.engine.tasks.map Running.jobId)[m]? = some u.jobId := by
    rw [List.getElem?_map, hu]
    rfl
  intro heq
  obtain ⟨hj, -⟩ := List.getElem?_eq_some_iff.mp (hmap ht')
  exact hne ((List.getElem?_inj hj hnodup).mp ((hmap ht').trans (heq ▸ (hmap ht).symm)))

/-- The job of the pass is of no task. -/
theorem pass_apart (h : Ledger s.engine.world.jobs (waiting s.engine) (working s) l)
    (ht : s.engine.tasks[i]? = some t) (hid : id ∈ s.pass.jobs) : id ≠ t.jobId :=
  (List.nodup_append.mp (List.nodup_append.mp h.apart).1).2.2 id hid t.jobId
    (List.mem_map_of_mem (List.mem_of_getElem? ht))

/-- An id that is not drawn has no row. -/
theorem no_row {r : JobRegistry} {waiting : List Job} {working issued : List JobId} (h : Ledger r waiting working l)
    (hk : Known r issued) (hid : id ∉ issued) : Table.get id r.store = none := by
  cases hget : Table.get id r.store with
  | none => rfl
  | some row =>
    refine absurd ?_ hid
    rw [← h.rows.keyed id row hget]
    exact hk.row (id, row) ((Table.mem_iff_get h.rows.nodup).mpr hget)

/-! #### One case for each action -/

/-- A step of a task. -/
theorem perform_sound (h : Sound s ps) (hl : Ledger s.engine.world.jobs (waiting s.engine) (working s) l)
    (ht : s.engine.tasks[i]? = some t) (hrest : t.rest = .call o k) (hw : c.written = true)
    (horderly : Orderly (s.engine.perform i t o k c)
      (Function.update ps i (next t.source (ps i) o (answer s.engine.world o (c.outcome o)).1))) :
    Sound ⟨s.engine.perform i t o k c, s.pass⟩
        (Function.update ps i (next t.source (ps i) o (answer s.engine.world o (c.outcome o)).1)) ∧
      Change s.engine.world.jobs (waiting s.engine) (working s) (s.engine.perform i t o k c).world.jobs
        (waiting (s.engine.perform i t o k c)) (working ⟨s.engine.perform i t o k c, s.pass⟩) [] := by
  have hsafe : Safe (books t.jobId) t.rest (ps i).closing _ := h.books i t ht
  rw [hrest] at hsafe
  have hreg := registry_answer (w := s.engine.world) hsafe.1 hw
  have hwork : working ⟨s.engine.perform i t o k c, s.pass⟩ = working s := by
    unfold working
    rw [jobIds_perform ht]
  have hother {id : JobId} (hne : id ≠ t.jobId) (hid : Stands s.engine.world.jobs id false) :
      Stands (s.engine.perform i t o k c).world.jobs id false := by
    rcases hreg with heq | ⟨f, hf, heq⟩
    · exact heq.symm ▸ hid
    · exact heq.symm ▸ hl.stands_update (mem_working ht) hf.id (fun he => absurd he hne) hid
  have hown (hopen : (ps i).closing = false) : Stands (s.engine.perform i t o k c).world.jobs t.jobId false := by
    have hid : Stands s.engine.world.jobs t.jobId false := h.tasks i t ht hopen
    rcases hreg with heq | ⟨f, hf, heq⟩
    · exact heq.symm ▸ hid
    · exact heq.symm ▸ hl.stands_update (mem_working ht) hf.id (fun _ => hf.running hopen) hid
  have hpermits : permits t.source t.jobId (ps i) o := by
    have hplan : Safe (watch t.source t.jobId) t.rest (ps i) Ended := h.orderly.plans i t ht
    rw [hrest] at hplan
    exact hplan.1
  refine ⟨⟨horderly, ?_, ?_, ?_, fun id hid => hother (pass_apart hl ht hid) (h.pass id hid)⟩, ?_⟩
  · refine each_perform (fun j t' _ hj => h.loads j t' hj) ht fun id hsource meeting hphase => ?_
    rcases drawn_next hpermits hphase with hphase | ⟨input, hinput⟩
    · exact h.loads i t ht id hsource meeting hphase
    · rw [show t.source = .reprocess id from hsource] at hinput
      cases hinput
  · refine each_perform (fun j t' _ hj => h.books j t' hj) ht ?_
    rw [closing_next t.jobId]
    exact hsafe.2 _
  · refine each_perform (fun j t' hne hj hopen => hother (task_unique hl ht hj hne) (h.tasks j t' hj hopen)) ht ?_
    intro hopen
    rw [closing_next t.jobId] at hopen
    exact hown (closing_of_next hopen)
  · rw [hwork]
    rcases hreg with heq | ⟨f, hf, heq⟩
    · exact heq.symm ▸ .keep (List.Sublist.refl _)
    · exact heq.symm ▸ .update (mem_working ht) hf (fun hopen => h.tasks i t ht hopen) (List.Sublist.refl _)

theorem stands_ne {r : JobRegistry} {terminal : Bool} (h : Stands r id terminal)
    (hnone : Table.get jobId r.store = none) : id ≠ jobId := by
  rintro rfl
  obtain ⟨row, hrow, -⟩ := h
  rw [hnone] at hrow
  cases hrow

/-- A job accepted. -/
theorem start_sound {kind : JobKind} {source : Source} (h : Sound s ps)
    (hl : Ledger s.engine.world.jobs (waiting s.engine) (working s) l) (hfresh : jobId ∉ s.engine.issued) :
    Sound ⟨(s.engine.accept jobId kind true).spawn cfg jobId source, s.pass⟩
        (Function.update ps s.engine.tasks.length Phase.opening.going) ∧
      Change s.engine.world.jobs (waiting s.engine) (working s)
        ((s.engine.accept jobId kind true).spawn cfg jobId source).world.jobs
        (waiting ((s.engine.accept jobId kind true).spawn cfg jobId source))
        (working ⟨(s.engine.accept jobId kind true).spawn cfg jobId source, s.pass⟩) [] := by
  have hnone : Table.get jobId s.engine.world.jobs.store = none := no_row hl h.orderly.known hfresh
  have hold {id : JobId} (hid : Stands s.engine.world.jobs id false) :
      Stands (s.engine.world.jobs.create kind jobId true) id false :=
    stands_put_of_ne (stands_ne hid hnone) hid
  refine ⟨⟨h.orderly.start, ?_, ?_, ?_, fun id hid => hold (h.pass id hid)⟩, .create hnone ?_⟩
  · exact each_spawn (e := s.engine.accept jobId kind true) h.loads fun _ _ _ hphase => by cases hphase
  · exact each_spawn (e := s.engine.accept jobId kind true) h.books (program_books cfg jobId source)
  · have htasks : KeepsOpen (s.engine.world.jobs.create kind jobId true) (s.engine.accept jobId kind true) ps :=
      fun j t' hj hopen => hold (h.tasks j t' hj hopen)
    exact each_spawn htasks fun _ => ⟨Job.new jobId kind, Table.get_put_self, rfl⟩
  · have hlist : working ⟨(s.engine.accept jobId kind true).spawn cfg jobId source, s.pass⟩ = working s ++ [jobId] := by
      simp [working, EngineState.spawn, EngineState.accept]
    rw [hlist]
    exact List.perm_append_singleton jobId (working s)

/-- The process dies. -/
theorem crash_sound {statusesListed jobsListed : Bool} {pass : Pass} (hpass : pass.jobs = [])
    (horderly : Orderly (s.engine.crash statusesListed jobsListed) ps) :
    Sound ⟨s.engine.crash statusesListed jobsListed, pass⟩ ps ∧
      Change s.engine.world.jobs (waiting s.engine) (working s)
        (s.engine.crash statusesListed jobsListed).world.jobs (waiting (s.engine.crash statusesListed jobsListed))
        (working ⟨s.engine.crash statusesListed jobsListed, pass⟩) [] := by
  have hwait : (waiting (s.engine.crash statusesListed jobsListed)).Sublist (listUnfinished s.engine.world) := by
    have hstatus (ids : List MeetingId) : (ids.map Recovery.status).filterMap (fun item => match item with
        | .job job => some job
        | .status _ => none) = [] := by
      induction ids with
      | nil => rfl
      | cons id ids ih => exact ih
    have hjobs (jobs : List Job) : (jobs.map Recovery.job).filterMap (fun item => match item with
        | .job job => some job
        | .status _ => none) = jobs := by
      induction jobs with
      | nil => rfl
      | cons job jobs ih => exact congrArg (job :: ·) ih
    unfold waiting EngineState.crash
    rw [List.filterMap_append]
    cases statusesListed <;> cases jobsListed <;> simp [hstatus, hjobs]
  have hwork : working ⟨s.engine.crash statusesListed jobsListed, pass⟩ = [] := by
    simp [working, EngineState.crash, hpass]
  refine ⟨⟨horderly, ?_, ?_, ?_, by simp [hpass]⟩, ?_⟩
  · simp [Each, EngineState.crash]
  · simp [Each, EngineState.crash]
  · simp [Each, EngineState.crash]
  rw [hwork]
  exact .crash rfl hwait

/-- What keeps the rows keeps the invariant of the engine. -/
theorem Sound.frame (h : Sound s ps) (hengine : s'.engine.tasks = s.engine.tasks) (horderly : Orderly s'.engine ps)
    (hrows : ∀ id, Stands s.engine.world.jobs id false → Stands s'.engine.world.jobs id false)
    (hpass : s'.pass.jobs ⊆ s.pass.jobs) : Sound s' ps :=
  ⟨horderly, fun i t ht => h.loads i t (hengine ▸ ht), fun i t ht => h.books i t (hengine ▸ ht),
    fun i t ht hopen => hrows _ (h.tasks i t (hengine ▸ ht) hopen), fun id hid => hrows id (h.pass id (hpass hid))⟩

/-- The status of a meeting is recovered. -/
theorem interrupted_sound {id : MeetingId} {rest : List Recovery} (h : Sound s ps)
    (hq : s.engine.recovering = .status id :: rest) :
    Sound ⟨{ s.engine.recoverStatus id c with recovering := rest }, s.pass⟩ ps ∧
      Change s.engine.world.jobs (waiting s.engine) (working s) (s.engine.recoverStatus id c).world.jobs
        (waiting { s.engine.recoverStatus id c with recovering := rest })
        (working ⟨{ s.engine.recoverStatus id c with recovering := rest }, s.pass⟩)
        (requeued cfg s (.engine (.recover c))) := by
  have hev : Evolves cfg s.engine ps (.recover c) { s.engine.recoverStatus id c with recovering := rest } ps :=
    .interrupted hq
  have hplans : Plans { s.engine.recoverStatus id c with recovering := rest } ps := h.orderly.plans
  have horderly := orderly_step h.orderly hplans hev
  obtain ⟨-, -, hjobs, -⟩ := recoverStatus_frame s.engine id c
  have hwait : waiting { s.engine.recoverStatus id c with recovering := rest } = waiting s.engine := by
    unfold waiting
    rw [hq]
    rfl
  refine ⟨h.frame rfl horderly (fun id' hid => ?_) (List.Subset.refl _), ?_⟩
  · exact hjobs.symm ▸ hid
  · simp only [requeued, hq]
    rw [hwait, show _ = s.engine.world.jobs from hjobs]
    exact .keep (List.Sublist.refl _)

/-- The first of the jobs that wait. -/
theorem waiting_cons {job : Job} {rest : List Recovery} (hq : s.engine.recovering = .job job :: rest) :
    waiting s.engine = job :: waiting { s.engine with recovering := rest } := by
  unfold waiting
  rw [hq]
  rfl

/-- A job that waits is not worked on. -/
theorem apart_of_waiting {job : Job} {rest : List Recovery} {id : JobId}
    (hl : Ledger s.engine.world.jobs (waiting s.engine) (working s) l) (hq : s.engine.recovering = .job job :: rest)
    (hwork : id ∈ working s) : id ≠ job.id := by
  rintro rfl
  exact (waiting_cons hq ▸ hl).not_working hwork

/-- A job that waits is closed. -/
theorem closed_sound {job : Job} {rest : List Recovery} {error : Text} (h : Sound s ps)
    (hl : Ledger s.engine.world.jobs (waiting s.engine) (working s) l) (hq : s.engine.recovering = .job job :: rest)
    (horderly : Orderly { s.engine.close job error true with recovering := rest } ps) :
    Sound ⟨{ s.engine.close job error true with recovering := rest }, s.pass⟩ ps ∧
      Change s.engine.world.jobs (waiting s.engine) (working s) (s.engine.close job error true).world.jobs
        (waiting { s.engine.close job error true with recovering := rest })
        (working ⟨{ s.engine.close job error true with recovering := rest }, s.pass⟩) [] := by
  have hold {id : JobId} (hwork : id ∈ working s) (hstands : Stands s.engine.world.jobs id false) :
      Stands (s.engine.close job error true).world.jobs id false := by
    have hne : id ≠ job.id := apart_of_waiting hl hq hwork
    exact stands_put_of_ne hne hstands
  refine ⟨⟨horderly, h.loads, h.books, ?_, ?_⟩, .close (waiting_cons hq)⟩
  · exact fun i t ht hopen => hold (mem_working ht) (h.tasks i t ht hopen)
  · exact fun id hid => hold (List.mem_append_left _ hid) (h.pass id hid)

/-- A job that waits goes on in a task of its own. -/
theorem resumed_sound {job : Job} {rest : List Recovery} {id : MeetingId} {e : EngineState} (c : Choice)
    (h : Sound s ps) (hl : Ledger s.engine.world.jobs (waiting s.engine) (working s) l)
    (hq : s.engine.recovering = .job job :: rest)
    (hid : job.meetingId = some id) (hstored : (Table.get id s.engine.world.store.transcripts).isSome)
    (hbudget : job.attempts < maxJobAttempts)
    (he : e = { s.engine with world := { s.engine.world with
      jobs := s.engine.world.jobs.reinsert job.resumed true } }) :
    Sound ⟨{ e.spawn cfg job.id (.reprocess id) with recovering := rest }, s.pass⟩
        (Function.update ps s.engine.tasks.length Phase.opening.going) ∧
      Change s.engine.world.jobs (waiting s.engine) (working s) e.world.jobs
        (waiting { s.engine with recovering := rest })
        (working ⟨{ e.spawn cfg job.id (.reprocess id) with recovering := rest }, s.pass⟩) [job.id] := by
  subst he
  have hold {id : JobId} (hwork : id ∈ working s) (hstands : Stands s.engine.world.jobs id false) :
      Stands (s.engine.world.jobs.reinsert job.resumed true) id false := by
    have hne : id ≠ job.id := apart_of_waiting hl hq hwork
    exact stands_put_of_ne hne hstands
  have hplans (w : World) : Plans ({ s.engine with world := w }.spawn cfg job.id (.reprocess id))
      (Function.update ps s.engine.tasks.length Phase.opening.going) :=
    each_spawn (e := { s.engine with world := w }) h.orderly.plans (program_safe cfg job.id _)
  have hloads (w : World) : Loads ({ s.engine with world := w }.spawn cfg job.id (.reprocess id))
      (Function.update ps s.engine.tasks.length Phase.opening.going) :=
    each_spawn (e := { s.engine with world := w }) h.loads fun _ _ _ hphase => by cases hphase
  have hbooks (w : World) : KeepsBooks ({ s.engine with world := w }.spawn cfg job.id (.reprocess id))
      (Function.update ps s.engine.tasks.length Phase.opening.going) :=
    each_spawn (e := { s.engine with world := w }) h.books (program_books cfg job.id (.reprocess id))
  have hopen : KeepsOpen (s.engine.world.jobs.reinsert job.resumed true) s.engine ps :=
    fun i t ht hopen => hold (mem_working ht) (h.tasks i t ht hopen)
  have htasks (w : World) : KeepsOpen (s.engine.world.jobs.reinsert job.resumed true)
      ({ s.engine with world := w }.spawn cfg job.id (.reprocess id))
      (Function.update ps s.engine.tasks.length Phase.opening.going) :=
    each_spawn (e := { s.engine with world := w }) hopen fun _ => ⟨job.resumed, Table.get_put_self, rfl⟩
  have hev : Evolves cfg s.engine ps (.recover { c with written := true }) _
      (Function.update ps s.engine.tasks.length Phase.opening.going) := .resumed hq hid hstored rfl
  refine ⟨⟨orderly_step h.orderly (hplans _) hev, hloads _, hbooks _, htasks _, ?_⟩,
    .resume (waiting_cons hq) hbudget ?_⟩
  · exact fun id hid => hold (List.mem_append_left _ hid) (h.pass id hid)
  · simp only [working, EngineState.spawn, List.map_append, List.map_cons, List.map_nil, ← List.append_assoc]
    exact List.perm_append_singleton job.id _

/-- A job is recovered. -/
theorem recover_sound {job : Job} {rest : List Recovery} (h : Sound s ps)
    (hl : Ledger s.engine.world.jobs (waiting s.engine) (working s) l) (hq : s.engine.recovering = .job job :: rest)
    (hw : c.written = true) :
    ∃ ps', Sound ⟨{ s.engine.recoverJob cfg job c with recovering := rest }, s.pass⟩ ps' ∧
      Change s.engine.world.jobs (waiting s.engine) (working s)
        (s.engine.recoverJob cfg job c).world.jobs (waiting { s.engine.recoverJob cfg job c with recovering := rest })
        (working ⟨{ s.engine.recoverJob cfg job c with recovering := rest }, s.pass⟩)
        (requeued cfg s (.engine (.recover c))) := by
  simp only [requeued, hq]
  rcases recoverJob_cases s.engine cfg job c with ⟨error, heq⟩ | ⟨id, -, hid, hstored, hbudget, heq⟩
  · rw [heq, hw]
    have hev : Evolves cfg s.engine ps (.recover { c with written := true })
        { s.engine.close job error true with recovering := rest } ps := .closed hq
    have hnone : (List.drop s.engine.tasks.length (s.engine.close job error true).tasks).map Running.jobId = [] := by
      simp [EngineState.close]
    rw [hnone]
    exact ⟨ps, closed_sound h hl hq (orderly_step h.orderly h.orderly.plans hev)⟩
  · rw [heq, hw]
    have hids : (List.drop s.engine.tasks.length ({ s.engine with world := { s.engine.world with
        jobs := s.engine.world.jobs.reinsert job.resumed true } }.spawn cfg job.id (.reprocess id)).tasks).map
          Running.jobId = [job.id] := by
      simp [EngineState.spawn]
    rw [hids]
    exact ⟨_, resumed_sound c h hl hq hid hstored hbudget rfl⟩

/-- The job of a pass is created. -/
theorem enroll_sound (h : Sound s ps) (hl : Ledger s.engine.world.jobs (waiting s.engine) (working s) l)
    (hpass : s.pass = .counting) (hfresh : jobId ∉ s.engine.issued) :
    Sound (s.enroll jobId true) ps ∧ Change s.engine.world.jobs (waiting s.engine) (working s)
      (s.enroll jobId true).engine.world.jobs (waiting (s.enroll jobId true).engine) (working (s.enroll jobId true))
      [] := by
  have hknown : Known s.engine.world.jobs s.engine.issued := h.orderly.known
  have hnone := no_row hl hknown hfresh
  have hsub : s.engine.issued ⊆ jobId :: s.engine.issued := List.subset_cons_self _ _
  have horderly : Orderly (s.enroll jobId true).engine ps :=
    h.orderly.frame rfl rfl rfl hsub ((hknown.mono hsub).reinsert (Job.new jobId .embedding) List.mem_cons_self)
      fun job hjob => hsub (h.orderly.recovering job hjob)
  have hwork : working s = s.engine.tasks.map Running.jobId := by
    unfold working
    rw [hpass]
    rfl
  refine ⟨⟨horderly, h.loads, h.books, fun i t ht hopen => ?_, fun id hid => ?_⟩, .create hnone (hwork ▸ .refl _)⟩
  · exact stands_put_of_ne (stands_ne (h.tasks i t ht hopen) hnone) (h.tasks i t ht hopen)
  · obtain rfl := List.mem_singleton.mp hid
    exact ⟨Job.new id .embedding, Table.get_put_self, rfl⟩

/-- The job of a pass runs. -/
theorem embedding_sound (h : Sound s ps) (hl : Ledger s.engine.world.jobs (waiting s.engine) (working s) l)
    (hpass : s.pass = .created jobId)
    (hs : s' = s.record (·.update jobId (fun j => { j with status := .running }) true) (.running jobId)) :
    Sound s' ps ∧ Change s.engine.world.jobs (waiting s.engine) (working s) s'.engine.world.jobs
      (waiting s'.engine) (working s') [] := by
  subst hs
  have hknown : Known s.engine.world.jobs s.engine.issued := h.orderly.known
  have hjob : jobId ∈ s.pass.jobs := by simp [hpass, Pass.jobs]
  have hkeeps : Keeps false fun j : Job => { j with status := .running } :=
    keeps_running (fun _ => rfl) (fun _ => rfl) fun _ => Or.inr rfl
  have horderly : Orderly (s.record (·.update jobId (fun j => { j with status := .running }) true)
      (.running jobId)).engine ps :=
    h.orderly.frame rfl rfl rfl (List.Subset.refl _) (hknown.update hkeeps.id) h.orderly.recovering
  refine ⟨h.frame rfl horderly (fun id hid => ?_) (by simp [hpass, System.record, Pass.jobs]),
    .update (List.mem_append_left _ hjob) hkeeps (fun _ => h.pass jobId hjob) ?_⟩
  · exact hl.stands_update (List.mem_append_left _ hjob) (fun _ => rfl) (fun _ _ _ => rfl) hid
  · simp [working, hpass, System.record, Pass.jobs]

/-- The job of a pass is closed with its outcome. -/
theorem embedded_sound {result : Except Text ℕ} (h : Sound s ps)
    (hl : Ledger s.engine.world.jobs (waiting s.engine) (working s) l) (hpass : s.pass = .running jobId)
    (hs : s' = s.record (·.update jobId (embeddingOutcome result) true) .idle) :
    Sound s' ps ∧ Change s.engine.world.jobs (waiting s.engine) (working s) s'.engine.world.jobs
      (waiting s'.engine) (working s') [] := by
  subst hs
  have hknown : Known s.engine.world.jobs s.engine.issued := h.orderly.known
  have hjob : jobId ∈ s.pass.jobs := by simp [hpass, Pass.jobs]
  have hkeeps : Keeps true (embeddingOutcome result) := by
    cases result <;> exact keeps_closed (fun _ => rfl) (fun _ => rfl) fun _ => rfl
  have horderly : Orderly (s.record (·.update jobId (embeddingOutcome result) true) .idle).engine ps :=
    h.orderly.frame rfl rfl rfl (List.Subset.refl _) (hknown.update hkeeps.id) h.orderly.recovering
  refine ⟨⟨horderly, h.loads, h.books, fun i t ht hopen => ?_, by simp [System.record, Pass.jobs]⟩,
    .update (List.mem_append_left _ hjob) hkeeps (fun _ => h.pass jobId hjob) (List.sublist_append_right _ _)⟩
  have hne : t.jobId ≠ jobId := (pass_apart hl ht hjob).symm
  exact hl.stands_update (List.mem_append_left _ hjob) hkeeps.id (fun heq => absurd heq hne) (h.tasks i t ht hopen)

/-- An action of the engine. -/
theorem engine_sound {a : Pool.Action} {e : EngineState} (h : Sound s ps)
    (hl : Ledger s.engine.world.jobs (waiting s.engine) (working s) l) (hd : Durable (.engine a))
    (hstep : Pool.step cfg s.engine a = some e) :
    ∃ ps', Sound ⟨e, s.pass.after a⟩ ps' ∧ Change s.engine.world.jobs (waiting s.engine) (working s) e.world.jobs
      (waiting e) (working ⟨e, s.pass.after a⟩) (requeued cfg s (.engine a)) := by
  cases a with
  | process jobId input written | reprocess jobId id written =>
    obtain rfl : written = true := hd
    obtain ⟨hfresh, rfl⟩ := start_eq hstep
    exact ⟨_, start_sound h hl hfresh⟩
  | cancel jobId =>
    obtain ⟨ps', hplans, hev⟩ := plans_step h.orderly.plans hstep
    have horderly := orderly_step h.orderly hplans hev
    cases hev with
    | cancel =>
      refine ⟨_, h.frame rfl horderly (fun id hid => ?_) (List.Subset.refl _), .cancel⟩
      unfold Stands
      rw [show _ = s.engine.world.jobs.store from store_requestCancel]
      exact hid
  | step i c =>
    obtain ⟨ps', hplans, hev⟩ := plans_step h.orderly.plans hstep
    have horderly := orderly_step h.orderly hplans hev
    cases hev with
    | task ht hrest hpermits hfresh => exact ⟨_, perform_sound h hl ht hrest hd horderly⟩
  | crash statusesListed jobsListed =>
    obtain ⟨ps', hplans, hev⟩ := plans_step h.orderly.plans hstep
    have horderly := orderly_step h.orderly hplans hev
    cases hev with
    | crash => exact ⟨_, crash_sound rfl horderly⟩
  | recover c =>
    cases hq : s.engine.recovering with
    | nil => simp [Pool.step, hq] at hstep
    | cons item rest =>
      cases item with
      | status id =>
        simp only [Pool.step, hq] at hstep
        obtain rfl := Option.some.inj hstep
        exact ⟨ps, interrupted_sound h hq⟩
      | job job =>
        simp only [Pool.step, hq] at hstep
        obtain rfl := Option.some.inj hstep
        exact recover_sound h hl hq hd

/-- **An action** keeps the engine in order, and changes the records in one of these ways. -/
theorem step_sound {a : Action} (h : Sound s ps) (hl : Ledger s.engine.world.jobs (waiting s.engine) (working s) l)
    (hd : Durable a) (hs : step cfg s a = some s') :
    ∃ ps', Sound s' ps' ∧ Change s.engine.world.jobs (waiting s.engine) (working s) s'.engine.world.jobs
      (waiting s'.engine) (working s') (requeued cfg s a) := by
  cases a with
  | engine a =>
    obtain ⟨e, hstep, rfl⟩ := Option.map_eq_some_iff.mp hs
    exact engine_sound h hl hd hstep
  | embed =>
    simp only [step] at hs
    split_ifs at hs
    obtain rfl := Option.some.inj hs
    exact ⟨ps, h.frame rfl h.orderly (fun _ hid => hid) (List.nil_subset _),
      .keep (List.sublist_append_right _ _)⟩
  | counted pending jobId written =>
    obtain rfl : written = true := hd
    simp only [step] at hs
    cases hpass : s.pass with
    | counting =>
      simp only [hpass] at hs
      split_ifs at hs with hpending hissued
      · obtain rfl := Option.some.inj hs
        exact ⟨ps, h.frame rfl h.orderly (fun _ hid => hid) (List.nil_subset _),
          .keep (List.sublist_append_right _ _)⟩
      · obtain rfl := Option.some.inj hs
        have hfresh : jobId ∉ s.engine.issued := fun hmem => hissued (by simpa using hmem)
        exact ⟨ps, enroll_sound h hl hpass hfresh⟩
    | _ => simp [hpass] at hs
  | embedding written =>
    obtain rfl : written = true := hd
    simp only [step] at hs
    cases hpass : s.pass with
    | created jobId =>
      simp only [hpass, Option.some.injEq] at hs
      exact ⟨ps, embedding_sound h hl hpass hs.symm⟩
    | _ => simp [hpass] at hs
  | embedded result written =>
    obtain rfl : written = true := hd
    simp only [step] at hs
    cases hpass : s.pass with
    | running jobId =>
      simp only [hpass, Option.some.injEq] at hs
      exact ⟨ps, embedded_sound h hl hpass hs.symm⟩
    | _ => simp [hpass] at hs

/-- **The invariant**, whatever happens. -/
theorem inv_step {a : Action} (h : Inv s l) (hd : Durable a) (hs : step cfg s a = some s') :
    Inv s' (l ++ requeued cfg s a) := by
  obtain ⟨ps, hsound, hl⟩ := h
  obtain ⟨ps', hsound', hchange⟩ := step_sound hsound hl hd hs
  exact ⟨ps', hsound', hl.change hchange⟩

theorem terminal_step {a : Action} (h : Inv s l) (hd : Durable a) (hs : step cfg s a = some s')
    (hid : Stands s.engine.world.jobs id true) :
    Stands s'.engine.world.jobs id true ∧ id ∉ requeued cfg s a := by
  obtain ⟨ps, hsound, hl⟩ := h
  obtain ⟨ps', -, hchange⟩ := step_sound hsound hl hd hs
  exact hl.terminal hchange hid

theorem inv_empty : Inv {} [] := by
  refine ⟨fun _ => Phase.opening.going,
    ⟨orderly_start, by simp [Each], by simp [Each], by simp [Each], by simp [Pass.jobs]⟩, ?_⟩
  exact ⟨⟨by simp, List.nodup_nil, by simp, by simp⟩, by simp [working, Pass.jobs], by simp [waiting],
    by simp [working, waiting, Pass.jobs]⟩

/-! ### Whole runs -/

/-- An action of `recover_jobs`, of `recover_interrupted`, or of a run that reprocesses a meeting. -/
def Reworks (s : System) : Action → Prop
  | .engine (.recover _) | .engine (.reprocess _ _ _) => True
  | .engine (.step i _) => ∃ t id, s.engine.tasks[i]? = some t ∧ t.source = .reprocess id
  | _ => False

/-- The job cannot be resumed: an embedding, or without a stored transcript. -/
def Unresumable (w : World) (job : Job) : Prop :=
  job.kind = .embedding ∨ ∀ m, job.meetingId = some m → Table.get m w.store.transcripts = none

/-- A run that reprocesses a meeting writes one that is stored. -/
theorem meetings_perform (h : Sound s ps) (ht : s.engine.tasks[i]? = some t) (hrest : t.rest = .call o k)
    {source : MeetingId} (hsource : t.source = .reprocess source) {m : MeetingId}
    (hm : (Table.get m (answer s.engine.world o (c.outcome o)).2.store.meetings).isSome) :
    (Table.get m s.engine.world.store.meetings).isSome := by
  have hplan : Safe (watch t.source t.jobId) t.rest (ps i) Ended := h.orderly.plans i t ht
  rw [hrest] at hplan
  cases o with
  | saveMeeting meeting =>
    have hstored : (Table.get meeting.id s.engine.world.store.meetings).isSome := by
      have hwrites : (ps i).phase.Writes meeting := hplan.1.2
      cases hph : (ps i).phase with
      | drawn drawn => exact absurd hph (h.loads i t ht source hsource drawn)
      | rendered loaded ir =>
        rw [hph] at hwrites
        obtain rfl : meeting = { loaded with participants := ir.participants } := hwrites
        exact h.orderly.recorded i t ht loaded.id (by rw [hph]; rfl)
      | _ =>
        rw [hph] at hwrites
        exact hwrites.elim
    cases hfails : c.fails with
    | some e => simpa [answer, Choice.outcome, hfails, World.write] using hm
    | none =>
      simp only [answer, Choice.outcome, hfails, World.write] at hm
      by_cases heq : m = meeting.id
      · exact heq ▸ hstored
      · rwa [Table.get_put_of_ne heq] at hm
  | saveTranscript _ _ | saveMeetingIr _ _ | saveMom _ _ | saveProcessingStatus _ _ =>
    cases hfails : c.fails <;> simpa [answer, Choice.outcome, hfails, World.write] using hm
  | getMeeting _ | getTranscript _ => simpa [answer] using hm
  | _ => exact hm

/-- **Recovery and reprocessing add no meeting.** -/
theorem reworks_adds_none {a : Action} (h : Sound s ps) (ha : Reworks s a) (hs : step cfg s a = some s') {m : MeetingId}
    (hm : (Table.get m s'.engine.world.store.meetings).isSome) :
    (Table.get m s.engine.world.store.meetings).isSome := by
  cases a with
  | engine a =>
    obtain ⟨e, hstep, rfl⟩ := Option.map_eq_some_iff.mp hs
    cases a with
    | reprocess jobId id written =>
      obtain ⟨-, rfl⟩ := start_eq hstep
      exact hm
    | step i c =>
      obtain ⟨t, id, ht, hsource⟩ := ha
      obtain ⟨ps', hplans, hev⟩ := plans_step h.orderly.plans hstep
      cases hev with
      | task ht' hrest hpermits hfresh =>
        obtain rfl := Option.some.inj (ht'.symm.trans ht)
        exact meetings_perform h ht hrest hsource hm
    | recover c =>
      obtain ⟨ps', hplans, hev⟩ := plans_step h.orderly.plans hstep
      cases hev with
      | interrupted hq =>
        obtain ⟨-, hmeetings, -, -⟩ := recoverStatus_frame s.engine _ c
        rwa [show _ = s.engine.world.store.meetings from hmeetings] at hm
      | closed hq => exact hm
      | resumed hq hid hstored hw =>
        subst hw
        exact hm
    | _ => exact ha.elim
  | _ => exact ha.elim

/-- **A job that cannot be resumed is closed.** -/
theorem closes_unresumable {job : Job} {rest : List Recovery} (hq : s.engine.recovering = .job job :: rest)
    (hw : c.written = true) (hs : step cfg s (.engine (.recover c)) = some s')
    (hjob : Unresumable s.engine.world job) :
    requeued cfg s (.engine (.recover c)) = [] ∧ ∃ error, Table.get job.id s'.engine.world.jobs.store =
      some { job with status := .failed, error := some error } := by
  obtain ⟨e, hstep, rfl⟩ := Option.map_eq_some_iff.mp hs
  simp only [Pool.step, hq] at hstep
  obtain rfl := Option.some.inj hstep
  simp only [requeued, hq]
  rcases recoverJob_cases s.engine cfg job c with ⟨error, heq⟩ | ⟨id, hkind, hid, hstored, -, -⟩
  · rw [heq, hw]
    refine ⟨by simp [EngineState.close], error, ?_⟩
    exact Table.get_put_self
  · rcases hjob with hembedding | hnone
    · exact absurd hembedding hkind
    · rw [hnone id hid] at hstored
      cases hstored

/-- A job that waits is as its row, and not terminal. -/
theorem Inv.waiting (h : Inv s l) {job : Job} {rest : List Recovery} (hq : s.engine.recovering = .job job :: rest) :
    Table.get job.id s.engine.world.jobs.store = some job ∧ job.status.isTerminal = false := by
  obtain ⟨ps, -, hl⟩ := h
  refine hl.listed job ?_
  simp [JobRecovery.waiting, hq]

theorem terminal_run {bs : List Action} (h : Inv s l) (hd : ∀ b ∈ bs, Durable b)
    (hrun : Lts.run (step cfg) s bs = some s') (hid : Stands s.engine.world.jobs id true) :
    id ∉ Lts.trace (step cfg) (requeued cfg) s bs := by
  have hstep (s : System) (q : List JobId) (b : Action) (s' : System)
      (h : (∃ l, Inv s l) ∧ Stands s.engine.world.jobs id true ∧ id ∉ q) (hd : Durable b)
      (hs : step cfg s b = some s') :
      (∃ l, Inv s' l) ∧ Stands s'.engine.world.jobs id true ∧ id ∉ q ++ requeued cfg s b := by
    obtain ⟨⟨l, hinv⟩, hid, hq⟩ := h
    obtain ⟨hid', hnot⟩ := terminal_step hinv hd hs hid
    exact ⟨⟨_, inv_step hinv hd hs⟩, hid', by simp [hq, hnot]⟩
  exact (Lts.inv_trace hstep (l := []) ⟨⟨l, h⟩, hid, List.not_mem_nil⟩ hd hrun).2.2

/-- **Bounded recovery without duplicates.** In any run of the engine whose durable writes of jobs succeed, the
process dying at any points: no job is requeued more than `maxJobAttempts` times; a job whose row is terminal is
not requeued from then on; a job that is recovered has the row it was listed with, and is closed if it cannot be
resumed; and neither recovery nor reprocessing adds a meeting. -/
theorem recovery_bounded (cfg : Config) (as : List Action) (s : System) (hrun : Lts.run (step cfg) {} as = some s)
    (hdurable : ∀ a ∈ as, Durable a) :
    (∀ id, (Lts.trace (step cfg) (requeued cfg) {} as).count id ≤ maxJobAttempts) ∧
    (∀ id bs s', Stands s.engine.world.jobs id true → (∀ b ∈ bs, Durable b) → Lts.run (step cfg) s bs = some s' →
      id ∉ Lts.trace (step cfg) (requeued cfg) s bs) ∧
    (∀ c job rest s', s.engine.recovering = .job job :: rest → c.written = true →
      step cfg s (.engine (.recover c)) = some s' →
      Table.get job.id s.engine.world.jobs.store = some job ∧ job.status.isTerminal = false ∧
        (Unresumable s.engine.world job → requeued cfg s (.engine (.recover c)) = [] ∧
          ∃ error, Table.get job.id s'.engine.world.jobs.store =
            some { job with status := .failed, error := some error })) ∧
    ∀ a s', Reworks s a → step cfg s a = some s' → ∀ m, (Table.get m s'.engine.world.store.meetings).isSome →
      (Table.get m s.engine.world.store.meetings).isSome := by
  have hstep (s : System) (l : List JobId) (a : Action) (s' : System) (h : Inv s l) (hd : Durable a)
      (hs : step cfg s a = some s') : Inv s' (l ++ requeued cfg s a) := inv_step h hd hs
  have hend : Inv s ([] ++ Lts.trace (step cfg) (requeued cfg) {} as) := Lts.inv_trace hstep inv_empty hdurable hrun
  refine ⟨fun id => ?_, fun id bs s' hid hd hr => terminal_run hend hd hr hid, fun c job rest s' hq hw hs => ?_,
    fun a s' ha hs m hm => ?_⟩
  · obtain ⟨ps, -, hl⟩ := hend
    have hcount := hl.rows.counted id
    rw [List.nil_append] at hcount
    rw [← hcount]
    cases hget : Table.get id s.engine.world.jobs.store with
    | none => exact Nat.zero_le _
    | some row => exact hl.rows.bounded id row hget
  · obtain ⟨hget, hopen⟩ := hend.waiting hq
    exact ⟨hget, hopen, closes_unresumable hq hw hs⟩
  · obtain ⟨ps, hsound, -⟩ := hend
    exact reworks_adds_none hsound ha hs hm

end Engine

/-! ### Three retries -/

/-- Every write succeeds, and the meeting drawn is `m`. -/
def succeeding : Choice where
  written := true
  drawn := (['m'], 0)
  fails := none
  media := .error (.toolUnavailable [])
  asr := .error (.notImplemented [])
  found := .ok {}
  synthesized := .ok {}

/-- The process dies, and the job it was working on is recovered. -/
def restart : List Action := [.engine (.crash true true), .engine (.recover succeeding)]

/-- A capture stored, and the process dying again and again. -/
def crashLoop : List Action :=
  .engine (.process ['j'] (.transcript none {}) true) :: List.replicate 7 (.engine (.step 0 succeeding)) ++
    (restart ++ restart ++ restart ++ restart)

/-- The fourth time the job is closed. -/
theorem crashLoop_bounded : ∃ s, Lts.run (step ⟨[], {}⟩) {} crashLoop = some s ∧
    (Lts.trace (step ⟨[], {}⟩) (requeued ⟨[], {}⟩) {} crashLoop).count ['j'] = maxJobAttempts ∧
    ∀ id, (Lts.trace (step ⟨[], {}⟩) (requeued ⟨[], {}⟩) {} crashLoop).count id ≤ maxJobAttempts := by
  have hobs : (Lts.run (step ⟨[], {}⟩) {} crashLoop).map (fun s => s.engine.tasks.length) = some 0 := by
    decide +kernel
  obtain ⟨s, hrun, -⟩ := Option.map_eq_some_iff.mp hobs
  refine ⟨s, hrun, by decide +kernel, (recovery_bounded ⟨[], {}⟩ crashLoop s hrun fun a ha => ?_).1⟩
  have hall : ∀ a ∈ crashLoop, Durable a := by
    simp [crashLoop, restart, Durable, succeeding, List.replicate]
  exact hall a ha

end Notely.Engine.JobRecovery
