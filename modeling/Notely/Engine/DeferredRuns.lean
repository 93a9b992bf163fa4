import Notely.Engine.Answers

/-! # Deferred means resumable

A capture whose run ended `Deferred` is offered for a retry, which computes its enrichment again from the
stored transcript. A run has its surroundings decided by an `Env`: the check at which the cancel flag is
first found raised, the calls of the store that fail, and what the media tools, the recognizer and the
analyzer answer. -/

namespace Notely.Engine.DeferredRuns

open Notely.Lib Notely.Lib.Programs Notely.Engine.Domain Notely.Engine.Jobs Notely.Engine.Orchestrator
open Notely.Engine.Analysis Notely.Engine.Answers

/-! ### The surroundings of a run -/

/-- The calls of the store. -/
inductive StoreCall
  | saveMeeting
  | getMeeting
  | saveTranscript
  | getTranscript
  | saveMeetingIr
  | saveMom
  | saveProcessingStatus
  deriving DecidableEq

/-- What happens around one run. The calls of one kind are counted from zero, and so are the checks of the
cancel flag. -/
structure Env where
  raisedAt : Option ℕ
  drawn : MeetingId × DateTime
  fails : StoreCall → ℕ → Option StorageError
  written : ℕ → Bool
  media : Except MediaError PreparedAudio
  asr : Except AsrError Transcript
  found : ℕ → Except AiError ChunkFindings
  synthesized : Except AiError MeetingIr

/-- The state of a run and what it has asked so far. -/
structure Session where
  world : World
  calls : StoreCall → ℕ := fun _ => 0
  checks : ℕ := 0
  updates : ℕ := 0
  chunks : ℕ := 0

/-- The flag is up by check `k`. -/
def Env.Raised (env : Env) (k : ℕ) : Prop := ∃ n ∈ env.raisedAt, n ≤ k

instance (env : Env) (k : ℕ) : Decidable (env.Raised k) :=
  match h : env.raisedAt with
  | none => isFalse (by simp [Env.Raised, h])
  | some n => decidable_of_iff (n ≤ k) (by simp [Env.Raised, h])

/-- What is decided for the next operation. -/
def Env.outcome (env : Env) (s : Session) {α : Type} : (o : Op α) → Outcome o
  | .updateJob _ _ => env.written s.updates
  | .getJob _ | .isCancelled _ | .send _ => ()
  | .newMeeting => env.drawn
  | .saveMeeting _ => env.fails .saveMeeting (s.calls .saveMeeting)
  | .getMeeting _ => env.fails .getMeeting (s.calls .getMeeting)
  | .saveTranscript _ _ => env.fails .saveTranscript (s.calls .saveTranscript)
  | .getTranscript _ => env.fails .getTranscript (s.calls .getTranscript)
  | .saveMeetingIr _ _ => env.fails .saveMeetingIr (s.calls .saveMeetingIr)
  | .saveMom _ _ => env.fails .saveMom (s.calls .saveMom)
  | .saveProcessingStatus _ _ => env.fails .saveProcessingStatus (s.calls .saveProcessingStatus)
  | .extractAudio _ _ _ => env.media
  | .transcribe _ => env.asr
  | .extractChunk _ _ => env.found s.chunks
  | .synthesize _ _ _ => env.synthesized

/-- One more call of a kind. -/
def Session.called (s : Session) (c : StoreCall) : Session :=
  { s with calls := Function.update s.calls c (s.calls c + 1) }

/-- The operation counted. -/
def Session.count (s : Session) {α : Type} : Op α → Session
  | .updateJob _ _ => { s with updates := s.updates + 1 }
  | .isCancelled _ => { s with checks := s.checks + 1 }
  | .saveMeeting _ => s.called .saveMeeting
  | .getMeeting _ => s.called .getMeeting
  | .saveTranscript _ _ => s.called .saveTranscript
  | .getTranscript _ => s.called .getTranscript
  | .saveMeetingIr _ _ => s.called .saveMeetingIr
  | .saveMom _ _ => s.called .saveMom
  | .saveProcessingStatus _ _ => s.called .saveProcessingStatus
  | .extractChunk _ _ => { s with chunks := s.chunks + 1 }
  | .getJob _ | .newMeeting | .send _ | .extractAudio _ _ _ | .transcribe _ | .synthesize _ _ _ => s

/-- The world as an operation finds it: the flag is raised before the check that first sees it. -/
def Env.before (env : Env) (s : Session) {α : Type} : Op α → World
  | .isCancelled jobId =>
    if env.Raised s.checks then { s.world with jobs := (s.world.jobs.requestCancel jobId).2 } else s.world
  | _ => s.world

/-- The surroundings answer. -/
def Env.handler (env : Env) : Handler Op Session := fun o s =>
  let a := answer (env.before s o) o (env.outcome s o)
  (a.1, { s.count o with world := a.2 })

/-! ### Runs -/

/-- `process` of a job just created. -/
def processed (cfg : Config) (env : Env) (w : World) (jobId : JobId) (input : MeetingInput) : World :=
  ((process cfg jobId input).run env.handler
    { world := { w with jobs := w.jobs.create .process jobId true } }).2.world

/-- `reprocess` of a job just created or taken up again. -/
def reprocessed (cfg : Config) (env : Env) (w : World) (job : Job) (meetingId : MeetingId) : World :=
  ((reprocess cfg job.id meetingId).run env.handler
    { world := { w with jobs := w.jobs.reinsert job true } }).2.world

/-- A transcript of the meeting is stored. -/
def Stored (w : World) (m : MeetingId) : Prop := (Table.get m w.store.transcripts).isSome

/-- The status of the meeting is `Deferred`. -/
def IsDeferred (w : World) (m : MeetingId) : Prop :=
  ∃ status ∈ Table.get m w.store.statuses, status.state = .deferred

/-- Deferred means resumable. -/
def Resumable (w : World) (m : MeetingId) : Prop := IsDeferred w m → Stored w m

/-- Nothing is stored for the meeting. -/
def Unused (w : World) (m : MeetingId) : Prop := Table.get m w.store.statuses = none ∧ ¬ Stored w m

/-- Recording the capture is given up before there is a transcript to store, for a reason other than the
store: the flag is up at the first check, or the audio gives no transcript. -/
def GivesUp (env : Env) : MeetingInput → Prop
  | .transcript _ _ => env.Raised 0
  | .audio _ _ => env.Raised 0 ∨ ¬ (env.media.isOk ∧ ¬ env.Raised 1 ∧ env.asr.isOk)

theorem stored_handler {env : Env} {m : MeetingId} {α : Type} (o : Op α) (s : Session)
    (h : Stored s.world m) : Stored (env.handler o s).2.world m := by
  refine transcript_isSome_answer o (env.outcome s o) ?_
  unfold Env.before
  split
  · split_ifs <;> exact h
  · exact h

/-! ### Before there is a transcript -/

section Steps
variable {cfg : Config} {env : Env} {jobId : JobId} {mid : Option MeetingId} {k : ℕ} {s : Session}

/-- The error of a stage other than the store. -/
def Retryable (err : PipelineError) : Prop := ∀ e, err ≠ .storage e

/-- The job has the meeting `mid`, and under the id drawn neither a status nor a transcript is stored. -/
structure Unsaved (env : Env) (jobId : JobId) (mid : Option MeetingId) (s : Session) : Prop where
  job : (s.world.jobs.get jobId).map Job.meetingId = some mid
  statusCalls : s.calls .saveProcessingStatus = 0
  transcript : Table.get env.drawn.1 s.world.store.transcripts = none
  status : Table.get env.drawn.1 s.world.store.statuses = none

theorem Unsaved.not_stored (h : Unsaved env jobId mid s) : ¬ Stored s.world env.drawn.1 := by
  simp [Stored, h.transcript]

theorem Unsaved.not_deferred (h : Unsaved env jobId mid s) : ¬ IsDeferred s.world env.drawn.1 := by
  simp [IsDeferred, h.status]

/-- The same with the flag down, before check `k`. -/
structure Waiting (env : Env) (jobId : JobId) (mid : Option MeetingId) (k : ℕ) (s : Session) : Prop
    extends Unsaved env jobId mid s where
  checks : s.checks = k
  calm : s.world.jobs.isCancelled jobId = false

theorem Waiting.update (h : Waiting env jobId mid k s) {f : Job → Job} {mid' : Option MeetingId}
    (hf : ∀ job, job.meetingId = mid → (f job).meetingId = mid') :
    Waiting env jobId mid' k (env.handler (.updateJob jobId f) s).2 where
  job := by
    have := h.job
    simp only [Env.handler, Env.before, answer, get_update_self]
    cases hj : s.world.jobs.get jobId with
    | none => simp [hj] at this
    | some job =>
      simp only [hj, Option.map_some, Option.some.injEq] at this ⊢
      exact hf job this
  statusCalls := h.statusCalls
  transcript := h.transcript
  status := h.status
  checks := h.checks
  calm := by
    have := h.calm
    simpa only [Env.handler, Env.before, answer, isCancelled_update] using this

theorem Waiting.send (h : Waiting env jobId mid k s) (e : Event) :
    Waiting env jobId mid k (env.handler (.send e) s).2 :=
  ⟨⟨h.job, h.statusCalls, h.transcript, h.status⟩, h.checks, h.calm⟩

theorem Waiting.stage (h : Waiting env jobId mid k s) (st : JobStage) :
    Ends env.handler (stage jobId st) s (fun _ => Waiting env jobId mid k) fun _ _ => False :=
  ends_lift (h.update fun _ hj => hj)

/-- A check of the flag, which is down so far. -/
theorem Waiting.check (h : Waiting env jobId mid k s) :
    Ends env.handler (checkCancel jobId) s (fun _ s' => ¬ env.Raised k ∧ Waiting env jobId mid (k + 1) s')
      fun err s' => err = .cancelled ∧ env.Raised k ∧ Unsaved env jobId mid s' := by
  refine ends_bind (ends_lift ?_)
  have hsome : (s.world.jobs.get jobId).isSome := by
    have := h.job
    cases hj : s.world.jobs.get jobId with
    | none => simp [hj] at this
    | some _ => rfl
  by_cases hr : env.Raised k
  · have hc : (env.handler (.isCancelled jobId) s).1 = true := by
      simp [Env.handler, Env.before, answer, h.checks, hr, isCancelled_requestCancel hsome]
    rw [hc, if_pos rfl]
    refine ends_throw ⟨rfl, hr, ?_, h.statusCalls, ?_, ?_⟩
    · simpa [Env.handler, Env.before, answer, h.checks, hr] using h.job
    · simpa [Env.handler, Env.before, answer, h.checks, hr] using h.transcript
    · simpa [Env.handler, Env.before, answer, h.checks, hr] using h.status
  · have hc : (env.handler (.isCancelled jobId) s).1 = false := by
      simp [Env.handler, Env.before, answer, h.checks, hr, h.calm]
    rw [hc, if_neg Bool.false_ne_true]
    have hw : (env.handler (.isCancelled jobId) s).2.world = s.world := by
      simp [Env.handler, Env.before, answer, h.checks, hr]
    refine ends_pure ⟨hr, ⟨?_, h.statusCalls, ?_, ?_⟩, ?_, ?_⟩
    · rw [hw, h.job]
    · rw [hw, h.transcript]
    · rw [hw, h.status]
    · rw [← h.checks]
      rfl
    · rw [hw, h.calm]

/-- An operation that answers from the surroundings alone. -/
theorem Waiting.same (h : Waiting env jobId mid k s) {α : Type} {o : Op α} (ho : (env.handler o s).2 = s) :
    Waiting env jobId mid k (env.handler o s).2 := by
  rwa [ho]

theorem Waiting.mediaAndAsr (h : Waiting env jobId mid 1 s) (path : Strings.Text) :
    Ends env.handler (mediaAndAsr cfg jobId path) s
      (fun _ s' => (env.media.isOk ∧ ¬ env.Raised 1 ∧ env.asr.isOk) ∧ Unsaved env jobId mid s')
      fun err s' => ¬ (env.media.isOk ∧ ¬ env.Raised 1 ∧ env.asr.isOk) ∧ Retryable err ∧
        Unsaved env jobId mid s' := by
  unfold Orchestrator.mediaAndAsr
  refine ends_bind ((h.stage _).mono (fun _ s1 h => ends_op ?_) fun _ _ => False.elim)
  replace h := h.send (.mediaProcessingStarted jobId)
  refine ends_try (fun prepared hm => ends_op ?_) fun e hm => ?_
  · have hm : env.media = .ok prepared := hm
    replace h := (h.same (o := .extractAudio path [cfg.dataDir, "work".toList, jobId] {}) rfl).send
      (.mediaProcessingCompleted jobId)
    refine ends_bind (h.check.mono (fun _ s2 ⟨hr, h⟩ => ?_) fun err s2 ⟨he, hr, h⟩ => ?_)
    · refine ends_bind ((h.stage _).mono (fun _ s3 h => ends_op ?_) fun _ _ => False.elim)
      replace h := h.send (.transcriptionStarted jobId)
      refine ends_try (fun t ha => ends_op (ends_pure ?_)) fun e ha => ?_
      · have ha : env.asr = .ok t := ha
        exact ⟨by simp [hm, ha, hr, Except.isOk, Except.toBool],
          ((h.same (o := .transcribe { path := prepared.path }) rfl).send _).toUnsaved⟩
      · have ha : env.asr = .error e := ha
        exact ⟨by simp [ha, Except.isOk, Except.toBool], nofun, h.toUnsaved⟩
    · exact ⟨fun hn => hn.2.1 hr, he ▸ nofun, h⟩
  · have hm : env.media = .error e := hm
    exact ⟨by simp [hm, Except.isOk, Except.toBool], nofun, h.toUnsaved⟩

/-- The transcript of the input, after the first check found the flag down. -/
theorem Waiting.rawTranscriptOf (h : Waiting env jobId mid 1 s) (h0 : ¬ env.Raised 0) (input : MeetingInput) :
    Ends env.handler (rawTranscriptOf cfg jobId input) s
      (fun _ s' => ¬ GivesUp env input ∧ Unsaved env jobId mid s')
      fun err s' => GivesUp env input ∧ Retryable err ∧ Unsaved env jobId mid s' := by
  cases input with
  | transcript title t => exact ends_pure ⟨h0, h.toUnsaved⟩
  | audio title path =>
    refine (h.mediaAndAsr path).mono (fun _ s' ⟨hok, hu⟩ => ⟨?_, hu⟩) fun _ s' ⟨hn, hr, hu⟩ => ⟨Or.inr hn, hr, hu⟩
    rintro (hr | hn)
    · exact h0 hr
    · exact hn hok

theorem Waiting.saveMeeting (h : Waiting env jobId mid k s) (m : Meeting) :
    Waiting env jobId mid k (env.handler (.saveMeeting m) s).2 := by
  have hstore : ((env.handler (.saveMeeting m) s).2.world.store.transcripts = s.world.store.transcripts ∧
      (env.handler (.saveMeeting m) s).2.world.store.statuses = s.world.store.statuses) ∧
      (env.handler (.saveMeeting m) s).2.world.jobs = s.world.jobs := by
    simp only [Env.handler, Env.before, Env.outcome, answer]
    cases env.fails .saveMeeting (s.calls .saveMeeting) <;> exact ⟨⟨rfl, rfl⟩, rfl⟩
  refine ⟨⟨?_, h.statusCalls, ?_, ?_⟩, h.checks, ?_⟩
  · rw [hstore.2, h.job]
  · rw [hstore.1.1, h.transcript]
  · rw [hstore.1.2, h.status]
  · rw [hstore.2, h.calm]

theorem stored_saveTranscript {m : MeetingId} {t : Transcript}
    (ht : (env.handler (.saveTranscript m t) s).1 = .ok ()) :
    Stored (env.handler (.saveTranscript m t) s).2.world m := by
  have hok : env.fails .saveTranscript (s.calls .saveTranscript) = none := write_eq_ok.mp ht
  simp [Stored, Env.handler, Env.before, Env.outcome, answer, World.write, hok]

theorem Unsaved.saveTranscript_failed (h : Unsaved env jobId mid s) {m : MeetingId} {t : Transcript}
    {e : StorageError} (ht : (env.handler (.saveTranscript m t) s).1 = .error e) :
    Unsaved env jobId mid (env.handler (.saveTranscript m t) s).2 := by
  have hfail : env.fails .saveTranscript (s.calls .saveTranscript) = some e := write_eq_error.mp ht
  have hw : (env.handler (.saveTranscript m t) s).2.world = s.world := by
    simp [Env.handler, Env.before, Env.outcome, answer, World.write, hfail]
  exact ⟨by rw [hw, h.job], h.statusCalls, by rw [hw, h.transcript], by rw [hw, h.status]⟩

/-- The capture is given up before its transcript although its meeting was saved. -/
def Lost (env : Env) (input : MeetingInput) : Prop := env.fails .saveMeeting 0 = none ∧ GivesUp env input

/-- **What a run leaves**: a stored transcript; or the meeting without one, after an error that can be
retried; or an error of the store. -/
theorem run_ends (h : Waiting env jobId none 0 s) (hcalls : s.calls .saveMeeting = 0) (input : MeetingInput) :
    Ends env.handler (run cfg jobId input) s
      (fun _ s' => ¬ Lost env input ∧ Stored s'.world env.drawn.1)
      fun err s' => (¬ Lost env input ∧ Stored s'.world env.drawn.1) ∨
        (Lost env input ∧ Retryable err ∧ Unsaved env jobId (some env.drawn.1) s') ∨
        (¬ Lost env input ∧ ¬ Retryable err ∧ ∃ mid, (mid = none ∨ mid = some env.drawn.1) ∧
          Unsaved env jobId mid s') := by
  unfold run
  refine ends_op (ends_op ?_)
  have hrunning : Waiting env jobId none 0
      (env.handler (.updateJob jobId fun j => { j with status := .running }) s).2 := h.update fun _ hj => hj
  replace h := hrunning.same (o := .newMeeting) rfl
  refine ends_try (fun _ hm => ends_op (ends_op ?_)) fun e hm => ?_
  · have hok : env.fails .saveMeeting (s.calls .saveMeeting) = none := write_eq_ok.mp hm
    replace h := ((h.saveMeeting (Meeting.new input.title env.drawn.1 env.drawn.2)).update
      (f := fun j => { j with meetingId := some env.drawn.1 }) fun _ _ => rfl).send
      (.processingStarted jobId env.drawn.1)
    refine ends_bind (h.check.mono (fun _ s1 ⟨hr, h⟩ => ?_) fun err s1 ⟨he, hr, h⟩ => ?_)
    · refine ends_bind ((h.rawTranscriptOf hr input).mono (fun t s2 ⟨hg, h⟩ => ?_) fun err s2 ⟨hg, he, h⟩ => ?_)
      · have hlost : ¬ Lost env input := fun hl => hg hl.2
        refine ends_try (fun _ ht => ?_) fun e ht => ?_
        · -- from here on the transcript is stored, whatever comes
          refine (ends_inv (fun o s => stored_handler o s) (stored_saveTranscript ht)).mono
            (fun _ s' hs => ⟨hlost, hs⟩) fun _ s' hs => Or.inl ⟨hlost, hs⟩
        · exact Or.inr (Or.inr ⟨hlost, fun hr => hr e rfl, _, Or.inr rfl, h.saveTranscript_failed ht⟩)
      · exact Or.inr (Or.inl ⟨⟨hcalls ▸ hok, hg⟩, he, h⟩)
    · refine Or.inr (Or.inl ⟨⟨hcalls ▸ hok, ?_⟩, he ▸ nofun, h⟩)
      cases input with
      | transcript _ _ => exact hr
      | audio _ _ => exact Or.inl hr
  · have hfail : env.fails .saveMeeting (s.calls .saveMeeting) = some e := write_eq_error.mp hm
    rw [hcalls] at hfail
    refine Or.inr (Or.inr ⟨fun hl => ?_, fun hr => hr e rfl, none, Or.inl rfl, (h.saveMeeting _).toUnsaved⟩)
    exact absurd (hl.1.symm.trans hfail) nofun

/-- The statuses after one more is written for the meeting, if there is one and the write succeeds. -/
def statusesAfter (env : Env) (s : Session) (mid : Option MeetingId) (status : ProcessingStatus) :
    List (MeetingId × ProcessingStatus) :=
  match mid, env.fails .saveProcessingStatus (s.calls .saveProcessingStatus) with
  | some m, none => Table.put m status s.world.store.statuses
  | _, _ => s.world.store.statuses

theorem reportFailure_store (mid : Option MeetingId) (f : Job → Job) (status : ProcessingStatus)
    (message : Strings.Text) :
    let w := ((reportFailure jobId mid f status message).run env.handler s).2.world
    w.store.transcripts = s.world.store.transcripts ∧ w.store.statuses = statusesAfter env s mid status := by
  unfold statusesAfter
  cases mid with
  | none => exact ⟨rfl, rfl⟩
  | some m =>
    simp only [reportFailure, run_bind, run_perform, Env.handler, Env.before, Env.outcome, Session.count, answer]
    cases env.fails .saveProcessingStatus (s.calls .saveProcessingStatus) <;> exact ⟨rfl, rfl⟩

/-- The status `finalize` writes for an error. -/
def finalStatus : PipelineError → ProcessingStatus
  | .cancelled => .deferred "cancelled".toList
  | err => statusOf err

theorem finalize_error (err : PipelineError) (hjob : (s.world.jobs.get jobId).map Job.meetingId = some mid) :
    let w := ((finalize jobId (.error err)).run env.handler s).2.world
    w.store.transcripts = s.world.store.transcripts ∧
      w.store.statuses = statusesAfter env s mid (finalStatus err) := by
  have hmid : (s.world.jobs.get jobId).bind Job.meetingId = mid := by
    cases hj : s.world.jobs.get jobId with
    | none => simp [hj] at hjob
    | some job => simpa [hj] using hjob
  subst hmid
  intro w
  cases err <;>
    · simp only [w, finalize, run_bind, run_perform, run_pure]
      exact reportFailure_store (s := s) _ _ _ _

theorem finalStatus_deferred (err : PipelineError) : (finalStatus err).state = .deferred ↔ Retryable err := by
  cases err <;> simp [finalStatus, statusOf, ProcessingStatus.deferred, ProcessingStatus.failed, Retryable]

/-- **What `finalize` leaves of a meeting without a transcript.** -/
theorem finalize_resumable {m : MeetingId} (err : PipelineError)
    (hjob : (s.world.jobs.get jobId).map Job.meetingId = some mid) (hmid : mid = none ∨ mid = some m)
    (hns : ¬ Stored s.world m) :
    Resumable ((finalize jobId (.error err)).run env.handler s).2.world m ↔
      ¬ if mid = some m ∧ env.fails .saveProcessingStatus (s.calls .saveProcessingStatus) = none
        then Retryable err else IsDeferred s.world m := by
  have hfin := @finalize_error env jobId mid s err hjob
  obtain ⟨htr, hst⟩ := hfin
  have hns' : ¬ Stored ((finalize jobId (.error err)).run env.handler s).2.world m := by
    unfold Stored
    rwa [htr]
  have hiff : Resumable ((finalize jobId (.error err)).run env.handler s).2.world m ↔
      ¬ IsDeferred ((finalize jobId (.error err)).run env.handler s).2.world m :=
    ⟨fun h hd => hns' (h hd), fun h hd => absurd hd h⟩
  rw [hiff, not_iff_not]
  unfold IsDeferred
  rw [hst]
  unfold statusesAfter
  rcases hmid with rfl | rfl
  · simp
  · cases hf : env.fails .saveProcessingStatus (s.calls .saveProcessingStatus) with
    | none => simp [finalStatus_deferred]
    | some e => simp

theorem world_getMeeting {m : MeetingId} : (env.handler (.getMeeting m) s).2.world = s.world := read_world

theorem world_getTranscript {m : MeetingId} : (env.handler (.getTranscript m) s).2.world = s.world :=
  read_world

/-- A retry without a stored transcript ends with an error of the store, and has stored nothing. -/
theorem rerun_ends {m : MeetingId} (hjob : (s.world.jobs.get jobId).isSome) (hns : ¬ Stored s.world m) :
    Ends env.handler (rerun cfg jobId m) s (fun _ _ => False) fun err s' =>
      ¬ Retryable err ∧ (s'.world.jobs.get jobId).map Job.meetingId = some (some m) ∧
        s'.calls .saveProcessingStatus = s.calls .saveProcessingStatus ∧ s'.world.store = s.world.store := by
  unfold rerun
  refine ends_op ?_
  generalize hs : (env.handler (.updateJob jobId fun j => { j with status := .running, meetingId := some m }) s).2
    = s1
  have hj1 : (s1.world.jobs.get jobId).map Job.meetingId = some (some m) := by
    obtain ⟨job, hj⟩ := Option.isSome_iff_exists.mp hjob
    simp [← hs, Env.handler, Env.before, answer, hj]
  have hc1 : s1.calls .saveProcessingStatus = s.calls .saveProcessingStatus := by
    rw [← hs]
    rfl
  have hw1 : s1.world.store = s.world.store := by
    rw [← hs]
    rfl
  refine ends_try (fun meeting hm => ?_) fun e hm => ?_
  · cases meeting with
    | none => exact ends_throw ⟨fun hr => hr _ rfl, by rw [world_getMeeting, hj1], hc1, by rw [world_getMeeting, hw1]⟩
    | some meeting =>
      refine ends_try (fun transcript ht => ?_) fun e ht => ?_
      · cases transcript with
        | none =>
          refine ends_throw ⟨fun hr => hr _ rfl, ?_, hc1, ?_⟩
          · rw [world_getTranscript, world_getMeeting, hj1]
          · rw [world_getTranscript, world_getMeeting, hw1]
        | some transcript =>
          have hget : Table.get m (env.handler (.getMeeting m) s1).2.world.store.transcripts = some transcript :=
            (read_eq_ok.mp ht).2
          rw [world_getMeeting, hw1] at hget
          exact absurd (by simp [Stored, hget]) hns
      · refine ⟨fun hr => hr _ rfl, ?_, hc1, ?_⟩
        · rw [world_getTranscript, world_getMeeting, hj1]
        · rw [world_getTranscript, world_getMeeting, hw1]
  · exact ⟨fun hr => hr _ rfl, by rw [world_getMeeting, hj1], hc1, by rw [world_getMeeting, hw1]⟩

end Steps

/-! ### Deferred means resumable -/

section Claim
variable (cfg : Config) (env : Env) (w : World) (jobId : JobId)

/-- A run that has stored the transcript, whatever follows. -/
theorem resumable_of_stored {α : Type} {x : Routine α} {s : Session} {m : MeetingId} (h : Stored s.world m) :
    Resumable (x.run env.handler s).2.world m :=
  fun _ => run_inv (fun o s => stored_handler o s) h

theorem waiting_start (hunused : Unused w env.drawn.1) :
    Waiting env jobId none 0 { world := { w with jobs := w.jobs.create .process jobId true } } where
  job := by
    have h : (w.jobs.reinsert (Job.new jobId .process) true).get (Job.new jobId .process).id =
        some (Job.new jobId .process) := get_reinsert_self
    change (w.jobs.create .process jobId true).get jobId = _ at h
    simp only [h, Option.map_some]
    rfl
  statusCalls := rfl
  transcript := by simpa [Stored] using hunused.2
  status := hunused.1
  checks := rfl
  calm := by
    have h : (w.jobs.reinsert (Job.new jobId .process) true).isCancelled (Job.new jobId .process).id = false :=
      isCancelled_reinsert
    exact h

theorem processed_iff (input : MeetingInput) (hunused : Unused w env.drawn.1) :
    Resumable (processed cfg env w jobId input) env.drawn.1 ↔
      ¬ (Lost env input ∧ env.fails .saveProcessingStatus 0 = none) := by
  have hrun := @run_ends cfg env jobId _ (waiting_start env w jobId hunused) rfl input
  unfold processed process
  rw [run_bind]
  unfold Ends exec at hrun
  rcases he : (run cfg jobId input).run.run env.handler
    { world := { w with jobs := w.jobs.create .process jobId true } } with ⟨err | id, s1⟩
  · rw [he] at hrun
    rcases hrun with ⟨hl, hs⟩ | ⟨hl, hr, hu⟩ | ⟨hl, hr, mid, hmid, hu⟩
    · exact iff_of_true (resumable_of_stored env hs) fun h => hl h.1
    · rw [finalize_resumable err hu.job (Or.inr rfl) hu.not_stored, hu.statusCalls, not_iff_not]
      simp [hl, hr, hu.not_deferred]
    · rw [finalize_resumable err hu.job hmid hu.not_stored, not_iff_not]
      simp [hl, hr, hu.not_deferred]
  · rw [he] at hrun
    exact iff_of_true (resumable_of_stored env hrun.2) fun h => hrun.1 h.1

theorem reprocessed_iff (job : Job) (m : MeetingId) :
    Resumable (reprocessed cfg env w job m) m ↔
      (Stored w m ∨ env.fails .saveProcessingStatus 0 = none ∨ ¬ IsDeferred w m) := by
  by_cases hs : Stored w m
  · exact iff_of_true (resumable_of_stored env hs) (Or.inl hs)
  · have hget : (w.jobs.reinsert job true).get job.id = some job := get_reinsert_self
    have hrun := @rerun_ends cfg env job.id { world := { w with jobs := w.jobs.reinsert job true } } m
      (by simp [hget]) hs
    unfold reprocessed reprocess
    rw [run_bind]
    unfold Ends exec at hrun
    rcases he : (rerun cfg job.id m).run.run env.handler
      { world := { w with jobs := w.jobs.reinsert job true } } with ⟨err | id, s1⟩
    · rw [he] at hrun
      obtain ⟨hr, hj, hc, hstore⟩ := hrun
      have hns : ¬ Stored s1.world m := by
        unfold Stored
        rwa [hstore]
      have hd : IsDeferred s1.world m ↔ IsDeferred w m := by
        unfold IsDeferred
        rw [hstore]
      rw [finalize_resumable err hj (Or.inr rfl) hns, hc, hd]
      by_cases hf : env.fails .saveProcessingStatus 0 = none
      · simp [hf, hr]
      · simp [hf, hs]
    · rw [he] at hrun
      exact hrun.elim

end Claim

/-- **Deferred means resumable, exactly.** A first run that could save its meeting and the final status is
resumable if and only if it did not give up before it had a transcript; a retry, if and only if there is a
transcript, or the final status is written, or the meeting was not `Deferred`. -/
theorem deferred_resumable_iff (cfg : Config) (env : Env) (w : World) (hunused : Unused w env.drawn.1) :
    (∀ jobId input, Resumable (processed cfg env w jobId input) env.drawn.1 ↔
      ¬ (env.fails .saveMeeting 0 = none ∧ GivesUp env input ∧ env.fails .saveProcessingStatus 0 = none)) ∧
    ∀ job m, Resumable (reprocessed cfg env w job m) m ↔
      (Stored w m ∨ env.fails .saveProcessingStatus 0 = none ∨ ¬ IsDeferred w m) := by
  refine ⟨fun jobId input => ?_, reprocessed_iff cfg env w⟩
  rw [processed_iff cfg env w jobId input hunused, Lost, and_assoc]

/-- Nothing fails, and the flag is up from check `k` on. -/
def cancelledAt (k : ℕ) : Env where
  raisedAt := some k
  drawn := (['m'], 0)
  fails _ _ := none
  written _ := true
  media := .error (.toolUnavailable [])
  asr := .error (.notImplemented [])
  found _ := .ok {}
  synthesized := .ok {}

/-- A capture cancelled at the second check, which follows the save of its transcript. -/
theorem cancelled_late_resumable :
    Resumable (processed ⟨[], {}⟩ (cancelledAt 1) {} [] (.transcript none {})) ['m'] := by
  refine ((deferred_resumable_iff ⟨[], {}⟩ (cancelledAt 1) {} ⟨rfl, by simp [Stored]⟩).1 [] _).mpr ?_
  rintro ⟨-, ⟨n, hn, h0⟩, -⟩
  cases hn
  exact absurd h0 (by decide)

/-- **A capture cancelled at once is offered for a retry that cannot load its transcript.** -/
theorem deferred_without_transcript : ¬ ∀ (cfg : Config) (env : Env) (w : World), Unused w env.drawn.1 →
    (∀ jobId input, Resumable (processed cfg env w jobId input) env.drawn.1) ∧
    ∀ job m, Resumable (reprocessed cfg env w job m) m := by
  intro h
  have hr := (h ⟨[], {}⟩ (cancelledAt 0) {} ⟨rfl, by simp [Stored]⟩).1 [] (.transcript none {})
  rw [processed_iff _ _ _ _ _ ⟨rfl, by simp [Stored]⟩] at hr
  exact hr ⟨⟨rfl, 0, rfl, Nat.le_refl 0⟩, rfl⟩

end Notely.Engine.DeferredRuns
