import Notely.Engine.RunPhases
import Notely.Lib.Lts

/-! # The engine

`lib.rs`. A request starts a job, whose run is a task; the tasks take their steps in any order, each
operation answered from the one world they share. The process can die at any point; when it starts again it
handles what was interrupted, first the statuses (`recover_interrupted`), then the jobs (`recover_jobs`),
before it accepts a request.

* `step`: one action of the engine.
* `Evolves`: what an action does to the engine and to the progress of its tasks.
* `plans_step`: every task keeps to the plan of its run. -/

namespace Notely.Engine.Pool

open Notely.Lib Notely.Lib.Programs Notely.Lib.Monitors Notely.Engine.Domain Notely.Engine.Jobs
open Notely.Engine.Orchestrator Notely.Engine.Analysis Notely.Engine.Answers Notely.Engine.RunPhases
open Notely.Lib.Strings (Text)

/-! ### The state -/

/-- What is decided elsewhere when a task takes a step. -/
structure Choice where
  written : Bool
  drawn : MeetingId × DateTime
  fails : Option StorageError
  media : Except MediaError PreparedAudio
  asr : Except AsrError Transcript
  found : Except AiError ChunkFindings
  synthesized : Except AiError MeetingIr

/-- What of it an operation meets. -/
def Choice.outcome (c : Choice) {α : Type} : (o : Op α) → Outcome o
  | .updateJob _ _ => c.written
  | .getJob _ | .isCancelled _ | .send _ => ()
  | .newMeeting => c.drawn
  | .saveMeeting _ | .getMeeting _ | .saveTranscript _ _ | .getTranscript _ | .saveMeetingIr _ _
  | .saveMom _ _ | .saveProcessingStatus _ _ => c.fails
  | .extractAudio _ _ _ => c.media
  | .transcribe _ => c.asr
  | .extractChunk _ _ => c.found
  | .synthesize _ _ _ => c.synthesized

/-- A task: its job, what the job is for, and what is left of its run. -/
structure Running where
  jobId : JobId
  source : Source
  rest : Routine (Except PipelineError MeetingId)

/-- The run has come to its end. -/
def Running.ended (t : Running) : Bool :=
  match t.rest with
  | .ret _ => true
  | .call _ _ => false

theorem ended_iff {t : Running} : t.ended = true ↔ ∃ result, t.rest = .ret result := by
  unfold Running.ended
  cases t.rest <;> simp

/-- What is left to recover: an interrupted capture, or an unfinished job. -/
inductive Recovery
  | status (id : MeetingId)
  | job (job : Job)

/-- The engine: the world, the tasks, the ids drawn so far, and what is left to recover. -/
structure EngineState where
  world : World := {}
  tasks : List Running := []
  issued : List Text := []
  recovering : List Recovery := []

/-! ### Start-up -/

/-- The captures that `recover_interrupted` lists. -/
def interrupted (w : World) : List MeetingId :=
  (w.store.statuses.filter fun row => row.2.state = .processing).map Prod.fst

/-- `list_unfinished`. -/
def listUnfinished (w : World) : List Job :=
  (w.jobs.store.map Prod.snd).filter fun job => job.status = .queued ∨ job.status = .running

/-- What a process that dies leaves: the store and the rows of the jobs. -/
def World.rebooted (w : World) : World := { w with jobs := { w.jobs with inner := [] }, events := [] }

/-- The process dies and is started again; either listing may fail. -/
def EngineState.crash (e : EngineState) (statusesListed jobsListed : Bool) : EngineState where
  world := World.rebooted e.world
  issued := e.issued
  recovering := (if statusesListed then (interrupted e.world).map .status else []) ++
    if jobsListed then (listUnfinished e.world).map .job else []

/-- A new task. -/
def EngineState.spawn (e : EngineState) (cfg : Config) (jobId : JobId) (source : Source) : EngineState :=
  { e with tasks := e.tasks ++ [⟨jobId, source, source.program cfg jobId⟩] }

/-- `MAX_JOB_ATTEMPTS`. -/
def maxJobAttempts : ℕ := 3

/-- The row of a job closed as failed. -/
def EngineState.close (e : EngineState) (job : Job) (error : Text) (written : Bool) : EngineState :=
  { e with world := { e.world with
    jobs := e.world.jobs.persist { job with status := .failed, error := some error } written } }

/-- The body of `recover_jobs`. -/
def EngineState.recoverJob (e : EngineState) (cfg : Config) (job : Job) (c : Choice) : EngineState :=
  match job.kind with
  | .embedding => e.close job "interrupted; will re-embed on next search".toList c.written
  | .process | .reprocess =>
    match job.meetingId.filter fun id => c.fails.isNone && (Table.get id e.world.store.transcripts).isSome with
    | none => e.close job "cannot resume: no stored transcript".toList c.written
    | some id =>
      if maxJobAttempts ≤ job.attempts then e.close job "exceeded retry budget".toList c.written
      else
        let e := { e with world := { e.world with jobs := e.world.jobs.reinsert job.resumed c.written } }
        e.spawn cfg job.id (.reprocess id)

/-- The body of `recover_interrupted`. -/
def EngineState.recoverStatus (e : EngineState) (id : MeetingId) (c : Choice) : EngineState :=
  let deferred := ProcessingStatus.deferred "processing was interrupted; will retry".toList
  { e with world := (e.world.write (fun s => { s with statuses := Table.put id deferred s.statuses }) c.fails).2 }

/-! ### Steps -/

/-- What can happen: a request, a step of a task, the death of the process, an item of recovery. -/
inductive Action
  | process (jobId : JobId) (input : MeetingInput) (written : Bool)
  | reprocess (jobId : JobId) (id : MeetingId) (written : Bool)
  | cancel (jobId : JobId)
  | step (i : ℕ) (c : Choice)
  | crash (statusesListed jobsListed : Bool)
  | recover (c : Choice)

/-- The engine with a job just accepted, but not its task. -/
def EngineState.accept (e : EngineState) (jobId : JobId) (kind : JobKind) (written : Bool) : EngineState :=
  { e with
    world := { e.world with
      jobs := e.world.jobs.create kind jobId written
      events := e.world.events ++ [Event.jobCreated jobId] }
    issued := jobId :: e.issued }

/-- `start_processing`, `start_reprocessing`: a job with a new id. -/
def EngineState.start (e : EngineState) (cfg : Config) (jobId : JobId) (kind : JobKind) (source : Source)
    (written : Bool) : Option EngineState :=
  if e.recovering.isEmpty ∧ ¬ e.issued.contains jobId then some ((e.accept jobId kind written).spawn cfg jobId source)
  else none

/-- The operation draws an id. -/
def draws {α : Type} : Op α → Bool
  | .newMeeting => true
  | _ => false

/-- Task `i`, which is `t`, performs `o` and goes on with the reply. -/
def EngineState.perform (e : EngineState) (i : ℕ) (t : Running) {β : Type} (o : Op β)
    (k : β → Routine (Except PipelineError MeetingId)) (c : Choice) : EngineState :=
  let a := answer e.world o (c.outcome o)
  { e with
    world := a.2
    tasks := e.tasks.set i { t with rest := k a.1 }
    issued := if draws o then c.drawn.1 :: e.issued else e.issued }

/-- **One action of the engine.** An id drawn is a new one, and a request is only accepted once everything is
recovered. -/
def step (cfg : Config) (e : EngineState) : Action → Option EngineState
  | .process jobId input written => e.start cfg jobId .process (.process input) written
  | .reprocess jobId id written => e.start cfg jobId .reprocess (.reprocess id) written
  | .cancel jobId =>
    if e.recovering.isEmpty then
      some { e with world := { e.world with jobs := (e.world.jobs.requestCancel jobId).2 } }
    else none
  | .step i c =>
    match e.tasks[i]? with
    | none => none
    | some t =>
      match t.rest with
      | .ret _ => none
      | .call o k => if draws o ∧ e.issued.contains c.drawn.1 then none else some (e.perform i t o k c)
  | .crash statusesListed jobsListed => some (e.crash statusesListed jobsListed)
  | .recover c =>
    match e.recovering with
    | [] => none
    | .status id :: rest => some { e.recoverStatus id c with recovering := rest }
    | .job job :: rest => some { e.recoverJob cfg job c with recovering := rest }

/-! ### What an action does -/

/-- The progress of the tasks, by their number. -/
abbrev Progresses := ℕ → Progress

/-- Every task, with its number and its progress, meets `Q`. -/
def Each (Q : ℕ → Running → Progress → Prop) (e : EngineState) (ps : Progresses) : Prop :=
  ∀ i t, e.tasks[i]? = some t → Q i t (ps i)

/-- Every task keeps to the plan of its run. -/
abbrev Plans : EngineState → Progresses → Prop :=
  Each fun _ t p => Safe (watch t.source t.jobId) t.rest p Ended

/-- **What an action does** to the engine and to the progress of its tasks. -/
inductive Evolves (cfg : Config) (e : EngineState) (ps : Progresses) : Action → EngineState → Progresses → Prop
  | task {i : ℕ} {t : Running} {β : Type} {o : Op β} {k : β → Routine (Except PipelineError MeetingId)}
      {c : Choice} (ht : e.tasks[i]? = some t) (hrest : t.rest = .call o k)
      (hpermits : permits t.source t.jobId (ps i) o) (hfresh : draws o = true → c.drawn.1 ∉ e.issued) :
      Evolves cfg e ps (.step i c) (e.perform i t o k c)
        (Function.update ps i (next t.source (ps i) o (answer e.world o (c.outcome o)).1))
  | process {jobId : JobId} {input : MeetingInput} {written : Bool} (hfresh : jobId ∉ e.issued) :
      Evolves cfg e ps (.process jobId input written)
        ((e.accept jobId .process written).spawn cfg jobId (.process input))
        (Function.update ps e.tasks.length Phase.opening.going)
  | reprocess {jobId : JobId} {id : MeetingId} {written : Bool} (hfresh : jobId ∉ e.issued) :
      Evolves cfg e ps (.reprocess jobId id written)
        ((e.accept jobId .reprocess written).spawn cfg jobId (.reprocess id))
        (Function.update ps e.tasks.length Phase.opening.going)
  | cancel {jobId : JobId} : Evolves cfg e ps (.cancel jobId)
      { e with world := { e.world with jobs := (e.world.jobs.requestCancel jobId).2 } } ps
  | crash {statusesListed jobsListed : Bool} :
      Evolves cfg e ps (.crash statusesListed jobsListed) (e.crash statusesListed jobsListed) ps
  | interrupted {id : MeetingId} {rest : List Recovery} {c : Choice} (hq : e.recovering = .status id :: rest) :
      Evolves cfg e ps (.recover c) { e.recoverStatus id c with recovering := rest } ps
  | closed {job : Job} {rest : List Recovery} {c : Choice} {error : Text} (hq : e.recovering = .job job :: rest) :
      Evolves cfg e ps (.recover c) { e.close job error c.written with recovering := rest } ps
  | resumed {job : Job} {id : MeetingId} {rest : List Recovery} {c : Choice} {w : World}
      (hq : e.recovering = .job job :: rest) (hid : job.meetingId = some id)
      (hstored : (Table.get id e.world.store.transcripts).isSome)
      (hw : w = { e.world with jobs := e.world.jobs.reinsert job.resumed c.written }) :
      Evolves cfg e ps (.recover c)
        { { e with world := w }.spawn cfg job.id (.reprocess id) with recovering := rest }
        (Function.update ps e.tasks.length Phase.opening.going)

section Step
variable {cfg : Config} {e e' : EngineState} {ps : Progresses} {a : Action}

/-- A task more. -/
theorem each_spawn {Q : ℕ → Running → Progress → Prop} (h : Each Q e ps) {jobId : JobId} {source : Source}
    (hnew : Q e.tasks.length ⟨jobId, source, source.program cfg jobId⟩ Phase.opening.going) :
    Each Q (e.spawn cfg jobId source) (Function.update ps e.tasks.length Phase.opening.going) := by
  intro i t ht
  rcases Nat.lt_trichotomy i e.tasks.length with hi | rfl | hi
  · rw [Function.update_of_ne hi.ne]
    exact h i t (by rwa [← List.getElem?_append_left hi])
  · have ht' : t = ⟨jobId, source, source.program cfg jobId⟩ := by
      simpa [EngineState.spawn, eq_comm] using ht
    rw [Function.update_self, ht']
    exact hnew
  · obtain ⟨hi', -⟩ := List.getElem?_eq_some_iff.mp ht
    have hlen : (e.spawn cfg jobId source).tasks.length = e.tasks.length + 1 := List.length_append
    omega

/-- A step of task `i`. -/
theorem each_perform {Q : ℕ → Running → Progress → Prop} {i : ℕ} {t : Running} {β : Type} {o : Op β}
    {k : β → Routine (Except PipelineError MeetingId)} {c : Choice} {p : Progress}
    (h : ∀ j t', j ≠ i → e.tasks[j]? = some t' → Q j t' (ps j)) (ht : e.tasks[i]? = some t)
    (hnew : Q i { t with rest := k (answer e.world o (c.outcome o)).1 } p) :
    Each Q (e.perform i t o k c) (Function.update ps i p) := by
  intro j t' ht'
  have hset : (e.tasks.set i { t with rest := k (answer e.world o (c.outcome o)).1 })[j]? = some t' := ht'
  by_cases hij : i = j
  · subst hij
    obtain ⟨hi, -⟩ := List.getElem?_eq_some_iff.mp ht
    rw [List.getElem?_set_self hi] at hset
    rw [← Option.some.inj hset, Function.update_self]
    exact hnew
  · rw [List.getElem?_set_ne hij] at hset
    rw [Function.update_of_ne (Ne.symm hij)]
    exact h j t' (Ne.symm hij) hset

theorem start_eq {jobId : JobId} {kind : JobKind} {source : Source} {written : Bool}
    (h : e.start cfg jobId kind source written = some e') :
    jobId ∉ e.issued ∧ e' = (e.accept jobId kind written).spawn cfg jobId source := by
  unfold EngineState.start at h
  split_ifs at h with hg
  exact ⟨by simpa using hg.2, (Option.some.inj h).symm⟩

theorem recoverJob_cases (e : EngineState) (cfg : Config) (job : Job) (c : Choice) :
    (∃ error, e.recoverJob cfg job c = e.close job error c.written) ∨
      ∃ id, job.kind ≠ .embedding ∧ job.meetingId = some id ∧ (Table.get id e.world.store.transcripts).isSome ∧
        job.attempts < maxJobAttempts ∧
        e.recoverJob cfg job c =
          { e with world := { e.world with jobs := e.world.jobs.reinsert job.resumed c.written } }.spawn cfg job.id
            (.reprocess id) := by
  unfold EngineState.recoverJob
  cases hkind : job.kind with
  | embedding => exact Or.inl ⟨_, rfl⟩
  | process | reprocess =>
    dsimp only
    split
    · exact Or.inl ⟨_, rfl⟩
    · rename_i id hid
      obtain ⟨hm, hstored⟩ := Option.filter_eq_some_iff.mp hid
      split_ifs with hbudget
      · exact Or.inl ⟨_, rfl⟩
      · exact Or.inr ⟨id, by simp, hm, (Bool.and_eq_true_iff.mp hstored).2, Nat.lt_of_not_le hbudget, rfl⟩

/-- **The tasks keep to their plans**, whatever the engine does. -/
theorem plans_step (h : Plans e ps) (hs : step cfg e a = some e') :
    ∃ ps', Plans e' ps' ∧ Evolves cfg e ps a e' ps' := by
  cases a with
  | process jobId input written =>
    obtain ⟨hfresh, rfl⟩ := start_eq hs
    exact ⟨_, each_spawn (e := e.accept jobId .process written) h (program_safe cfg jobId _), .process hfresh⟩
  | reprocess jobId id written =>
    obtain ⟨hfresh, rfl⟩ := start_eq hs
    exact ⟨_, each_spawn (e := e.accept jobId .reprocess written) h (program_safe cfg jobId _), .reprocess hfresh⟩
  | cancel jobId =>
    simp only [step] at hs
    split_ifs at hs
    obtain rfl := Option.some.inj hs
    exact ⟨ps, h, .cancel⟩
  | step i c =>
    simp only [step] at hs
    cases ht : e.tasks[i]? with
    | none => simp [ht] at hs
    | some t =>
      cases hrest : t.rest with
      | ret r => simp [ht, hrest] at hs
      | call o k =>
        simp only [ht, hrest] at hs
        split_ifs at hs with hd
        obtain rfl := Option.some.inj hs
        have hsafe : Safe (watch t.source t.jobId) t.rest (ps i) Ended := h i t ht
        rw [hrest] at hsafe
        have hfresh (hdraws : draws o = true) : c.drawn.1 ∉ e.issued := fun hmem => hd ⟨hdraws, by simpa using hmem⟩
        exact ⟨_, each_perform (fun j t' _ => h j t') ht (hsafe.2 _), .task ht hrest hsafe.1 hfresh⟩
  | crash statusesListed jobsListed =>
    obtain rfl := Option.some.inj hs
    exact ⟨ps, by simp [Plans, Each, EngineState.crash], .crash⟩
  | recover c =>
    simp only [step] at hs
    cases hq : e.recovering with
    | nil => simp [hq] at hs
    | cons item rest =>
      cases item with
      | status id =>
        simp only [hq] at hs
        obtain rfl := Option.some.inj hs
        exact ⟨ps, h, .interrupted hq⟩
      | job job =>
        simp only [hq] at hs
        obtain rfl := Option.some.inj hs
        rcases recoverJob_cases e cfg job c with ⟨error, heq⟩ | ⟨id, -, hid, hstored, -, heq⟩
        · rw [heq]
          exact ⟨ps, h, .closed hq⟩
        · rw [heq]
          have hplans (w : World) : Plans ({ e with world := w }.spawn cfg job.id (.reprocess id)) _ :=
            each_spawn (e := { e with world := w }) h (program_safe cfg job.id _)
          exact ⟨_, hplans _, .resumed hq hid hstored rfl⟩

end Step

end Notely.Engine.Pool
