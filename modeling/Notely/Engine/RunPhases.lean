import Notely.Engine.Answers
import Notely.Lib.Monitors

/-! # The phases of a run

What a run does to the store follows one plan: the meeting is recorded and its transcript captured, or both
are loaded; then the representation, the minutes and the meeting with its participants are written, each
only after the one before; and the outcome is told last. `watch` is the monitor of this plan.

* `program_safe`: both kinds of run keep to the plan, whatever is replied.
* `Failed`: why a run can fail, and in which phase. -/

namespace Notely.Engine.RunPhases

open Notely.Lib.Programs Notely.Lib.Monitors Notely.Engine.Domain Notely.Engine.Jobs Notely.Engine.Preprocess
open Notely.Engine.Orchestrator Notely.Engine.Analysis Notely.Engine.Markdown Notely.Engine.Answers

/-! ### The plan -/

/-- What a job is started for. -/
inductive Source
  | process (input : MeetingInput)
  | reprocess (id : MeetingId)
  deriving DecidableEq

/-- The run of a job. -/
def Source.program (cfg : Config) (jobId : JobId) : Source → Routine (Except PipelineError MeetingId)
  | .process input => Orchestrator.process cfg jobId input
  | .reprocess id => Orchestrator.reprocess cfg jobId id

/-- How far a run has come. -/
inductive Phase
  | opening
  | drawn (meeting : Meeting)
  | recorded (meeting : Meeting)
  | captured (meeting : Meeting)
  | analyzed (meeting : Meeting) (ir : MeetingIr)
  | rendered (meeting : Meeting) (ir : MeetingIr)
  | finished (meeting : Meeting) (ir : MeetingIr)

/-- The phase of a run; whether it has found the cancel flag raised, whether a step other than the analysis
has failed, and whether it has begun to apply its outcome. -/
structure Progress where
  phase : Phase
  stopped : Bool := false
  broken : Bool := false
  closing : Bool := false

/-- The run goes on. -/
def Progress.Open (p : Progress) : Prop := p.stopped = false ∧ p.broken = false ∧ p.closing = false

/-- The phases before the first artifact is written, in which the flag is checked. -/
def Phase.Early : Phase → Prop
  | .recorded _ | .captured _ => True
  | _ => False

/-- The phases in which no artifact is written. -/
def Phase.Unwritten : Phase → Prop
  | .analyzed _ _ | .rendered _ _ | .finished _ _ => False
  | _ => True

/-- The phases in which a meeting may be written, and what of it. -/
def Phase.Writes : Phase → Meeting → Prop
  | .drawn meeting, m => m = meeting
  | .rendered meeting ir, m => m = { meeting with participants := ir.participants }
  | _, _ => False

/-- The phase after the meeting is written. -/
def Phase.written : Phase → Phase
  | .drawn meeting => .recorded meeting
  | .rendered meeting ir => .finished meeting ir
  | ph => ph

/-- The phase after the transcript is stored or loaded. -/
def Phase.capture : Phase → Phase
  | .recorded meeting => .captured meeting
  | ph => ph

/-- The phase after the representation is written. -/
def Phase.analyze (ir : MeetingIr) : Phase → Phase
  | .captured meeting => .analyzed meeting ir
  | ph => ph

/-- The phase after the minutes are written. -/
def Phase.render : Phase → Phase
  | .analyzed meeting ir => .rendered meeting ir
  | ph => ph

/-- The transcript is the one submitted, if the input has one. -/
def Source.Submits : Source → Transcript → Prop
  | .process (.transcript _ t'), t => t = t'
  | .process (.audio _ _), _ => True
  | .reprocess _, _ => False

/-- The phases that have a meeting, by its id. -/
def Phase.Has (m : MeetingId) : Phase → Prop
  | .opening => False
  | .drawn meeting | .recorded meeting | .captured meeting | .analyzed meeting _ | .rendered meeting _
  | .finished meeting _ => meeting.id = m

/-- What a run may make of its job: the id stays, and the meeting is the one it had or the run's. -/
def Progress.Updates (p : Progress) (source : Source) (f : Job → Job) : Prop :=
  ∀ job, (f job).id = job.id ∧
    ∀ m, (f job).meetingId = some m → job.meetingId = some m ∨ source = .reprocess m ∨ p.phase.Has m

/-- The events of a run: the terminal ones only with the outcome, the others only before it. -/
def Progress.Tells (p : Progress) (jobId : JobId) : Event → Prop
  | .jobCompleted j id =>
      j = jobId ∧ p.closing = true ∧ ∃ meeting ir, p.phase = .finished meeting ir ∧ meeting.id = id
  | .jobFailed j _ =>
      j = jobId ∧ p.closing = true ∧ (p.stopped = true ∨ p.broken = true ∨ ∃ m, p.phase = .captured m)
  | e => e.jobId = jobId

/-- What a run may ask for. -/
def permits (source : Source) (jobId : JobId) (p : Progress) {α : Type} : Op α → Prop
  | .updateJob id f => id = jobId ∧ p.Updates source f
  | .getJob id => id = jobId ∧ p.closing = false
  | .isCancelled id => id = jobId ∧ p.Open ∧ p.phase.Early
  | .newMeeting => p.Open ∧ p.phase = .opening ∧ ∃ input, source = .process input
  | .saveMeeting m => p.Open ∧ p.phase.Writes m
  | .getMeeting id => p.Open ∧ p.phase = .opening ∧ source = .reprocess id
  | .saveTranscript id t => p.Open ∧ source.Submits t ∧ ∃ meeting, p.phase = .recorded meeting ∧ id = meeting.id
  | .getTranscript id => p.Open ∧ source = .reprocess id ∧ ∃ meeting, p.phase = .recorded meeting
  | .saveMeetingIr id _ => p.Open ∧ ∃ meeting, p.phase = .captured meeting ∧ id = meeting.id
  | .saveMom id mom => p.Open ∧ ∃ meeting ir, p.phase = .analyzed meeting ir ∧ id = meeting.id ∧
      mom = renderWithTitle ir meeting.title
  | .saveProcessingStatus id status =>
      if p.closing then status.state = .ready → ∃ meeting ir, p.phase = .finished meeting ir ∧ id = meeting.id
      else p.Open ∧ status = .processing ∧ ∃ meeting, p.phase = .captured meeting
  | .send e => p.Tells jobId e
  | .extractAudio _ _ _ | .transcribe _ =>
      p.Open ∧ (∃ meeting, p.phase = .recorded meeting) ∧ ∃ title path, source = .process (.audio title path)
  | .extractChunk _ _ | .synthesize _ _ _ => p.Open ∧ ∃ meeting, p.phase = .captured meeting

/-- The progress after a step that may fail. -/
def Progress.after {ε α : Type} (p : Progress) (f : α → Progress) : Except ε α → Progress
  | .ok a => f a
  | .error _ => { p with broken := true }

theorem Progress.after_ind {ε α : Type} {P : Progress → Prop} {p : Progress} {f : α → Progress} {r : Except ε α}
    (hok : ∀ a, r = .ok a → P (f a)) (herr : ∀ e, r = .error e → P { p with broken := true }) : P (p.after f r) := by
  cases r with
  | ok a => exact hok a rfl
  | error e => exact herr e rfl

/-- The progress after a step that may fail or find nothing. -/
def Progress.found {ε α : Type} (p : Progress) (f : α → Progress) (r : Except ε (Option α)) : Progress :=
  p.after (fun a => a.elim { p with broken := true } f) r

/-- The title of a new meeting. -/
def Source.title : Source → Lib.Strings.Text
  | .process input => input.title
  | .reprocess _ => []

/-- What a reply makes of the progress. -/
def next (source : Source) (p : Progress) {α : Type} : Op α → α → Progress
  | .getJob _, _ => { p with closing := true }
  | .isCancelled _, raised => if raised then { p with stopped := true } else p
  | .newMeeting, drawn => { p with phase := .drawn (Meeting.new source.title drawn.1 drawn.2) }
  | .saveMeeting _, r => p.after (fun _ => { p with phase := p.phase.written }) r
  | .getMeeting _, r => p.found (fun meeting => { p with phase := .recorded meeting }) r
  | .saveTranscript _ _, r => p.after (fun _ => { p with phase := p.phase.capture }) r
  | .getTranscript _, r => p.found (fun _ => { p with phase := p.phase.capture }) r
  | .saveMeetingIr _ ir, r => p.after (fun _ => { p with phase := p.phase.analyze ir }) r
  | .saveMom _ _, r => p.after (fun _ => { p with phase := p.phase.render }) r
  | .extractAudio _ _ _, r => p.after (fun _ => p) r
  | .transcribe _, r => p.after (fun _ => p) r
  | .updateJob _ _, _ | .saveProcessingStatus _ _, _ | .send _, _ | .extractChunk _ _, _ | .synthesize _ _ _, _ => p

/-- **The monitor of a run.** -/
def watch (source : Source) (jobId : JobId) : Monitor Op Progress where
  permits p o := permits source jobId p o
  next p o r := next source p o r

/-! ### Both kinds of run keep to the plan -/

/-- The phase of a run in which nothing has gone wrong. -/
abbrev Phase.going (ph : Phase) : Progress := { phase := ph }

/-- **Why a run fails**: the flag was found raised, a step other than the analysis failed, or the analysis did,
before anything of it was written. -/
structure Failed (err : PipelineError) (p : Progress) : Prop where
  running : p.closing = false
  stopped : err = .cancelled → p.stopped = true
  cause : p.stopped = true ∨ p.broken = true ∨ ∃ m, p.phase = .captured m

/-- A run that succeeds has finished the meeting it returns. -/
structure Succeeded (id : MeetingId) (p : Progress) : Prop where
  running : p.closing = false
  finished : ∃ meeting ir, p.phase = .finished meeting ir ∧ meeting.id = id

section Rules
variable {Γ α β ε : Type} {M : Monitor Op Γ} {g : Γ} {R : β → Γ → Prop} {E : PipelineError → Γ → Prop}

/-- An operation, then the rest. -/
theorem try_op {o : Op α} {f : α → Pipeline β} (hp : M.permits g o) (hf : ∀ r, Try M (f r) (M.next g o r) R E) :
    Try M (op o >>= f) g R E :=
  try_bind (try_lift hp hf)

/-- An operation that may fail, then the rest. -/
theorem try_unwrap {o : Op (Except ε α)} {wrap : ε → PipelineError} {f : α → Pipeline β} (hp : M.permits g o)
    (hok : ∀ a, Try M (f a) (M.next g o (.ok a)) R E) (herr : ∀ e, E (wrap e) (M.next g o (.error e))) :
    Try M (op o >>= fun r => orFail wrap r >>= f) g R E := by
  refine try_op hp fun r => try_bind ?_
  cases r with
  | ok a => exact try_pure (hok a)
  | error e => exact try_throw (herr e)

end Rules

section Plan
variable {source : Source} {cfg : Config} {jobId : JobId} {meeting : Meeting} {ph : Phase} {g : Progress}

/-- An operation of a step other than the analysis has failed. -/
theorem failed_broken {err : PipelineError} (h : err ≠ .cancelled) (hg : g.closing = false) :
    Failed err { g with broken := true } :=
  ⟨hg, fun he => absurd he h, Or.inr (Or.inl rfl)⟩

/-- The analysis has failed. -/
theorem failed_analysis {e : AiError} : Failed (.ai e) (Phase.captured meeting).going :=
  ⟨rfl, by simp, Or.inr (Or.inr ⟨meeting, rfl⟩)⟩

theorem stage_safe {st : JobStage} {E : PipelineError → Progress → Prop} :
    Try (watch source jobId) (stage jobId st) g (fun _ g' => g' = g) E :=
  try_lift ⟨rfl, fun _ => ⟨rfl, fun _ => Or.inl⟩⟩ fun _ => rfl

theorem checkCancel_safe (hph : ph.Early) :
    Try (watch source jobId) (checkCancel jobId) ph.going (fun _ g => g = ph.going) Failed := by
  refine try_op ⟨rfl, ⟨rfl, rfl, rfl⟩, hph⟩ fun raised => ?_
  cases raised with
  | true => exact try_throw ⟨rfl, fun _ => rfl, Or.inl rfl⟩
  | false => exact try_pure rfl

theorem validateStage_safe {ir : MeetingIr} :
    Try (watch source jobId) (validateStage jobId ir) (Phase.captured meeting).going
      (fun _ g => g = (Phase.captured meeting).going) Failed := by
  refine try_seq stage_safe fun _ => try_op rfl fun _ => try_bind ?_
  cases validate ir with
  | ok _ => exact try_pure (try_lift rfl fun _ => rfl)
  | error e => exact try_throw failed_analysis

theorem extractFrom_safe {context : AnalysisContext} {total : ℕ} (chunks : List Chunk) (i : ℕ) :
    Try (watch source jobId) (extractFrom jobId context total i chunks) (Phase.captured meeting).going
      (fun _ g => g = (Phase.captured meeting).going) Failed := by
  induction chunks generalizing i with
  | nil => exact try_pure rfl
  | cons chunk chunks ih =>
    refine try_seq (checkCancel_safe trivial) fun _ => ?_
    refine try_unwrap ⟨⟨rfl, rfl, rfl⟩, meeting, rfl⟩ (fun found => try_op rfl fun _ => ?_) fun _ => failed_analysis
    exact try_seq (ih (i + 1)) fun rest => try_pure rfl

theorem analyze_safe {prepared : PreparedTranscript} {context : AnalysisContext} :
    Try (watch source jobId) (analyze jobId prepared context) (Phase.captured meeting).going
      (fun _ g => g = (Phase.captured meeting).going) Failed := by
  unfold analyze
  dsimp only
  split_ifs
  · exact try_seq validateStage_safe fun _ => try_pure rfl
  · refine try_seq stage_safe fun _ => try_op rfl fun _ => try_seq (extractFrom_safe _ 0) fun findings => ?_
    refine try_op rfl fun _ => try_seq (checkCancel_safe trivial) fun _ => try_seq stage_safe fun _ => ?_
    refine try_op rfl fun _ => try_unwrap ⟨⟨rfl, rfl, rfl⟩, meeting, rfl⟩ (fun ir => ?_) fun _ => failed_analysis
    refine try_op rfl fun _ => try_seq (checkCancel_safe trivial) fun _ => ?_
    exact try_seq validateStage_safe fun _ => try_pure rfl

theorem mediaAndAsr_safe {title : Option Lib.Strings.Text} {path : Lib.Strings.Text} :
    Try (watch (.process (.audio title path)) jobId) (mediaAndAsr cfg jobId path) (Phase.recorded meeting).going
      (fun _ g => g = (Phase.recorded meeting).going) Failed := by
  refine try_seq stage_safe fun _ => try_op rfl fun _ => ?_
  refine try_unwrap ⟨⟨rfl, rfl, rfl⟩, ⟨meeting, rfl⟩, title, path, rfl⟩ (fun prepared => try_op rfl fun _ => ?_)
    fun _ => failed_broken (by simp) rfl
  refine try_seq (checkCancel_safe trivial) fun _ => try_seq stage_safe fun _ => try_op rfl fun _ => ?_
  refine try_unwrap ⟨⟨rfl, rfl, rfl⟩, ⟨meeting, rfl⟩, title, path, rfl⟩ (fun t => ?_)
    fun _ => failed_broken (by simp) rfl
  exact try_op rfl fun _ => try_pure rfl

/-- **The enrichment writes the representation, the minutes and the meeting in this order.** -/
theorem enrich_safe {transcript : Transcript} {context : AnalysisContext} :
    Try (watch source jobId) (enrich cfg jobId meeting transcript context) (Phase.captured meeting).going
      (fun _ g => ∃ ir, g = (Phase.finished meeting ir).going) Failed := by
  refine try_seq stage_safe fun _ => try_op rfl fun _ => try_op rfl fun _ => ?_
  refine try_seq (checkCancel_safe trivial) fun _ => try_seq analyze_safe fun ir => ?_
  refine try_unwrap ⟨⟨rfl, rfl, rfl⟩, meeting, rfl, rfl⟩ (fun _ => ?_) fun _ => failed_broken (by simp) rfl
  refine try_seq stage_safe fun _ => try_op rfl fun _ => try_op rfl fun _ => try_seq stage_safe fun _ => ?_
  refine try_unwrap ⟨⟨rfl, rfl, rfl⟩, meeting, ir, rfl, rfl, rfl⟩ (fun _ => ?_) fun _ => failed_broken (by simp) rfl
  refine try_op ⟨⟨rfl, rfl, rfl⟩, rfl⟩ fun r => ?_
  cases r with
  | ok _ => exact try_pure ⟨ir, rfl⟩
  | error e => exact try_throw (failed_broken (by simp) rfl)

theorem persistStatus_safe {id : MeetingId} {E : PipelineError → Progress → Prop} :
    Try (watch source jobId) (persistStatus id .processing) (Phase.captured meeting).going
      (fun _ g => g = (Phase.captured meeting).going) E :=
  try_op ⟨⟨rfl, rfl, rfl⟩, rfl, meeting, rfl⟩ fun _ => try_pure rfl

theorem rawTranscriptOf_safe {input : MeetingInput} :
    Try (watch (.process input) jobId) (rawTranscriptOf cfg jobId input) (Phase.recorded meeting).going
      (fun t g => (Source.process input).Submits t ∧ g = (Phase.recorded meeting).going) Failed := by
  cases input with
  | transcript title t => exact try_pure ⟨rfl, rfl⟩
  | audio title path => exact mediaAndAsr_safe.mono (fun _ _ h => ⟨trivial, h⟩) fun _ _ h => h

theorem run_safe {input : MeetingInput} :
    Try (watch (.process input) jobId) (run cfg jobId input) Phase.opening.going Succeeded Failed := by
  refine try_op ⟨rfl, fun _ => ⟨rfl, fun _ => Or.inl⟩⟩ fun _ => ?_
  refine try_op ⟨⟨rfl, rfl, rfl⟩, rfl, input, rfl⟩ fun drawn => ?_
  refine try_unwrap ⟨⟨rfl, rfl, rfl⟩, rfl⟩ (fun _ => ?_) fun _ => failed_broken (by simp) rfl
  refine try_op ⟨rfl, fun _ => ⟨rfl, fun _ h => Or.inr (Or.inr (Option.some.inj h))⟩⟩ fun _ => ?_
  refine try_op rfl fun _ => try_seq (checkCancel_safe trivial) fun _ => ?_
  refine try_bind (rawTranscriptOf_safe.mono (fun t g ⟨ht, hg⟩ => ?_) fun _ _ h => h)
  subst hg
  refine try_unwrap ⟨⟨rfl, rfl, rfl⟩, ht, _, rfl, rfl⟩ (fun _ => ?_) fun _ => failed_broken (by simp) rfl
  refine try_seq persistStatus_safe fun _ => try_seq (checkCancel_safe trivial) fun _ => ?_
  refine try_bind (enrich_safe.mono (fun _ g ⟨ir, hg⟩ => ?_) fun _ _ h => h)
  exact try_pure ⟨by rw [hg], _, ir, by rw [hg], rfl⟩

theorem rerun_safe {id : MeetingId} :
    Try (watch (.reprocess id) jobId) (rerun cfg jobId id) Phase.opening.going Succeeded Failed := by
  refine try_op ⟨rfl, fun _ => ⟨rfl, fun _ h => Or.inr (Or.inl (by rw [Option.some.inj h]))⟩⟩ fun _ => ?_
  refine try_unwrap ⟨⟨rfl, rfl, rfl⟩, rfl, rfl⟩ (fun found => ?_) fun _ => failed_broken (by simp) rfl
  cases found with
  | none => exact try_throw (failed_broken (by simp) rfl)
  | some meeting =>
    refine try_unwrap ⟨⟨rfl, rfl, rfl⟩, rfl, meeting, rfl⟩ (fun loaded => ?_) fun _ => failed_broken (by simp) rfl
    cases loaded with
    | none => exact try_throw (failed_broken (by simp) rfl)
    | some transcript =>
      refine try_seq persistStatus_safe fun _ => try_op rfl fun _ => try_seq (checkCancel_safe trivial) fun _ => ?_
      refine try_bind (enrich_safe.mono (fun _ g ⟨ir, hg⟩ => ?_) fun _ _ h => h)
      exact try_pure ⟨by rw [hg], meeting, ir, by rw [hg], rfl⟩

/-- How a run stands before its outcome is applied. -/
def Outcome (p : Progress) : Except PipelineError MeetingId → Prop
  | .ok id => Succeeded id p
  | .error err => Failed err p

/-- **How a run ends**: with its outcome applied. -/
def Ended (result : Except PipelineError MeetingId) (p : Progress) : Prop :=
  ∃ p', p = { p' with closing := true } ∧ Outcome p' result

theorem reportFailure_safe {mid : Option MeetingId} {f : Job → Job} {status : ProcessingStatus}
    {message : Lib.Strings.Text} (hf : ∀ job, (f job).id = job.id ∧ (f job).meetingId = job.meetingId)
    (hst : status.state ≠ .ready)
    (hg : g.stopped = true ∨ g.broken = true ∨ ∃ m, g.phase = .captured m) :
    Safe (watch source jobId) (reportFailure jobId mid f status message) { g with closing := true }
      fun _ g' => g' = { g with closing := true } := by
  have htell : Safe (watch source jobId) (perform (.send (.jobFailed jobId message))) { g with closing := true }
      fun _ g' => g' = { g with closing := true } := safe_perform ⟨rfl, rfl, hg⟩ fun _ => rfl
  refine safe_bind (safe_perform ⟨rfl, fun job => ⟨(hf job).1, fun m h => Or.inl ((hf job).2 ▸ h)⟩⟩ fun _ => ?_)
  cases mid with
  | none => exact htell
  | some id => exact safe_bind (safe_perform (fun h => absurd h hst) fun _ => htell)

theorem reportSuccess_safe {ir : MeetingIr} (hg : g.phase = .finished meeting ir) :
    Safe (watch source jobId) (reportSuccess jobId meeting.id) { g with closing := true }
      fun _ g' => g' = { g with closing := true } := by
  have hhas : g.phase.Has meeting.id := by rw [hg]; rfl
  refine safe_bind (safe_perform ⟨rfl, fun _ => ⟨rfl, fun m h => Or.inr (Or.inr ?_)⟩⟩ fun _ => ?_)
  · rwa [← Option.some.inj h]
  refine safe_bind (safe_perform (fun _ => ⟨meeting, ir, hg, rfl⟩) fun _ => ?_)
  exact safe_perform ⟨rfl, rfl, meeting, ir, hg, rfl⟩ fun _ => rfl

theorem finalize_safe {result : Except PipelineError MeetingId} (h : Outcome g result) :
    Safe (watch source jobId) (finalize jobId result) g Ended := by
  have hrun : g.closing = false := by
    cases result with
    | ok id => exact h.running
    | error err => exact h.running
  refine safe_bind (safe_perform ⟨rfl, hrun⟩ fun job => ?_)
  have hend : Ended result { g with closing := true } := ⟨g, rfl, h⟩
  cases result with
  | ok id =>
    obtain ⟨meeting, ir, hph, rfl⟩ := h.finished
    exact safe_bind ((reportSuccess_safe hph).mono fun _ _ hg => hg ▸ hend)
  | error err =>
    have hfail (mid : Option MeetingId) (f : Job → Job) (status : ProcessingStatus) (message : Lib.Strings.Text)
        (hf : ∀ job, (f job).id = job.id ∧ (f job).meetingId = job.meetingId) (hst : status.state ≠ .ready) :
        Safe (watch source jobId) (reportFailure jobId mid f status message >>= fun _ => pure (.error err))
          { g with closing := true } Ended :=
      safe_bind ((reportFailure_safe hf hst h.cause).mono fun _ _ hg => hg ▸ hend)
    cases err with
    | cancelled => exact hfail _ _ _ _ (fun _ => ⟨rfl, rfl⟩) (by simp [ProcessingStatus.deferred])
    | media e | asr e | ai e | storage e =>
      exact hfail _ _ _ _ (fun _ => ⟨rfl, rfl⟩)
        (by simp [statusOf, ProcessingStatus.deferred, ProcessingStatus.failed])

end Plan

/-- **Every run keeps to the plan**, whatever it is told and whatever fails. -/
theorem program_safe (cfg : Config) (jobId : JobId) (source : Source) :
    Safe (watch source jobId) (source.program cfg jobId) Phase.opening.going Ended := by
  cases source with
  | process input =>
    refine safe_bind (Safe.mono run_safe fun r g h => finalize_safe ?_)
    cases r <;> exact h
  | reprocess id =>
    refine safe_bind (Safe.mono rerun_safe fun r g h => finalize_safe ?_)
    cases r <;> exact h

end Notely.Engine.RunPhases
