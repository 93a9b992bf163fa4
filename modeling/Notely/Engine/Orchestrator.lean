import Notely.Engine.Analysis
import Notely.Engine.Jobs
import Notely.Engine.Markdown
import Notely.Lib.Programs

/-! # The orchestrator

`pipeline/orchestrator.rs`. A meeting is driven through the stages of processing by a program over the
operations of the job registry, the store, the event stream, the media tools, the recognizer and the
analyzer (`Op`); what these answer is left open. `process` takes a new capture, `reprocess` computes the
enrichment of a stored one again, and `finalize` applies the outcome of either. -/

namespace Notely.Engine.Orchestrator

open Notely.Lib.Strings Notely.Lib.Programs Notely.Engine.Domain Notely.Engine.Jobs Notely.Engine.Preprocess
open Notely.Engine.Analysis Notely.Engine.Markdown

/-! ### What is processed and what can go wrong -/

/-- `MeetingInput`. -/
inductive MeetingInput
  | transcript (title : Option Text) (transcript : Transcript)
  | audio (title : Option Text) (path : Text)
  deriving DecidableEq

/-- `MeetingInput::title`. -/
def MeetingInput.title : MeetingInput → Text
  | .transcript title _ | .audio title _ => title.getD "Untitled meeting".toList

/-- `ExtractOptions`. -/
structure ExtractOptions where
  sampleRate : ℕ := 16000
  channels : ℕ := 1
  deriving DecidableEq

/-- `PreparedAudio`. -/
structure PreparedAudio where
  path : Text
  sampleRate : ℕ
  channels : ℕ
  deriving DecidableEq

/-- `AudioInput`. -/
structure AudioInput where
  path : Text
  languageHint : Option Text := none
  deriving DecidableEq

/-- `MediaError`. -/
inductive MediaError
  | inputNotFound (path : Text)
  | toolUnavailable (tool : Text)
  | failed (detail : Text)
  deriving DecidableEq

def MediaError.toText : MediaError → Text
  | .inputNotFound p => "input media not found: ".toList ++ p
  | .toolUnavailable t => "media tool unavailable: ".toList ++ t
  | .failed d => "media processing failed: ".toList ++ d

/-- `AsrError`. -/
inductive AsrError
  | notImplemented (backend : Text)
  | inputNotFound (path : Text)
  | unreachable (detail : Text)
  | runtime (detail : Text)
  | failed (detail : Text)
  deriving DecidableEq

def AsrError.toText : AsrError → Text
  | .notImplemented b => "ASR backend '".toList ++ b ++ "' is not implemented yet".toList
  | .inputNotFound p => "audio input not found: ".toList ++ p
  | .unreachable d => "could not reach the ASR runtime: ".toList ++ d
  | .runtime d => "ASR runtime error: ".toList ++ d
  | .failed d => "transcription failed: ".toList ++ d

/-- `StorageError`. -/
inductive StorageError
  | backend (detail : Text)
  | serde (detail : Text)
  deriving DecidableEq

def StorageError.toText : StorageError → Text
  | .backend d => "storage backend error: ".toList ++ d
  | .serde d => "failed to (de)serialize stored data: ".toList ++ d

/-- `PipelineError`. -/
inductive PipelineError
  | cancelled
  | media (error : MediaError)
  | asr (error : AsrError)
  | ai (error : AiError)
  | storage (error : StorageError)
  deriving DecidableEq

def PipelineError.toText : PipelineError → Text
  | .cancelled => "job was cancelled".toList
  | .media e => e.toText
  | .asr e => e.toText
  | .ai e => e.toText
  | .storage e => e.toText

/-- `Event`. -/
inductive Event
  | jobCreated (jobId : JobId)
  | processingStarted (jobId : JobId) (meetingId : MeetingId)
  | mediaProcessingStarted (jobId : JobId)
  | mediaProcessingCompleted (jobId : JobId)
  | transcriptionStarted (jobId : JobId)
  | transcriptionProgress (jobId : JobId) (progress : F64)
  | transcriptionCompleted (jobId : JobId)
  | chunkingStarted (jobId : JobId)
  | chunkingCompleted (jobId : JobId) (chunkCount : ℕ)
  | extractionStarted (jobId : JobId) (chunkCount : ℕ)
  | extractionProgress (jobId : JobId) (completed total : ℕ)
  | extractionCompleted (jobId : JobId)
  | synthesisStarted (jobId : JobId)
  | synthesisCompleted (jobId : JobId)
  | validationStarted (jobId : JobId)
  | validationCompleted (jobId : JobId)
  | renderingStarted (jobId : JobId)
  | renderingCompleted (jobId : JobId)
  | jobCompleted (jobId : JobId) (meetingId : MeetingId)
  | jobFailed (jobId : JobId) (message : Text)
  deriving DecidableEq

/-- `Event::job_id`. -/
def Event.jobId : Event → JobId
  | .jobCreated j | .processingStarted j _ | .mediaProcessingStarted j | .mediaProcessingCompleted j
  | .transcriptionStarted j | .transcriptionProgress j _ | .transcriptionCompleted j
  | .chunkingStarted j | .chunkingCompleted j _ | .extractionStarted j _ | .extractionProgress j _ _
  | .extractionCompleted j | .synthesisStarted j | .synthesisCompleted j | .validationStarted j
  | .validationCompleted j | .renderingStarted j | .renderingCompleted j | .jobCompleted j _
  | .jobFailed j _ => j

/-! ### Operations -/

/-- What a run asks of what is around it, with the type of the reply. -/
inductive Op : Type → Type
  | updateJob (jobId : JobId) (f : Job → Job) : Op Unit
  | getJob (jobId : JobId) : Op (Option Job)
  | isCancelled (jobId : JobId) : Op Bool
  | newMeeting : Op (MeetingId × DateTime)
  | saveMeeting (meeting : Meeting) : Op (Except StorageError Unit)
  | getMeeting (id : MeetingId) : Op (Except StorageError (Option Meeting))
  | saveTranscript (id : MeetingId) (transcript : Transcript) : Op (Except StorageError Unit)
  | getTranscript (id : MeetingId) : Op (Except StorageError (Option Transcript))
  | saveMeetingIr (id : MeetingId) (ir : MeetingIr) : Op (Except StorageError Unit)
  | saveMom (id : MeetingId) (mom : Text) : Op (Except StorageError Unit)
  | saveProcessingStatus (id : MeetingId) (status : ProcessingStatus) : Op (Except StorageError Unit)
  | send (event : Event) : Op Unit
  | extractAudio (path : Text) (outDir : List Text) (options : ExtractOptions) :
    Op (Except MediaError PreparedAudio)
  | transcribe (audio : AudioInput) : Op (Except AsrError Transcript)
  | extractChunk (chunk : Chunk) (context : AnalysisContext) : Op (Except AiError ChunkFindings)
  | synthesize (findings : List ChunkFindings) (transcript : Transcript) (context : AnalysisContext) :
    Op (Except AiError MeetingIr)

/-- A computation that cannot fail. -/
abbrev Routine := Prog Op

/-- A computation that may end with a `PipelineError`. -/
abbrev Pipeline := ExceptT PipelineError Routine

/-- One operation. -/
def op {α : Type} (o : Op α) : Pipeline α := ExceptT.lift (perform o)

/-- `?`: the error of a layer becomes one of the pipeline. -/
def orFail {ε α : Type} (wrap : ε → PipelineError) : Except ε α → Pipeline α
  | .ok a => pure a
  | .error e => throw (wrap e)

section Rules
variable {σ α β ε : Type} {h : Handler Op σ} {s : σ} {Q : β → σ → Prop} {E : PipelineError → σ → Prop}

/-- An operation, then the rest. -/
theorem ends_op {o : Op α} {f : α → Pipeline β} (hf : Ends h (f (h o s).1) (h o s).2 Q E) :
    Ends h (op o >>= f) s Q E :=
  ends_bind (ends_lift hf)

/-- An operation that may fail, then the rest. -/
theorem ends_try {o : Op (Except ε α)} {wrap : ε → PipelineError} {f : α → Pipeline β}
    (hok : ∀ a, (h o s).1 = .ok a → Ends h (f a) (h o s).2 Q E)
    (herr : ∀ e, (h o s).1 = .error e → E (wrap e) (h o s).2) :
    Ends h (op o >>= fun r => orFail wrap r >>= f) s Q E := by
  refine ends_op (ends_bind ?_)
  cases hr : (h o s).1 with
  | ok a => exact ends_pure (hok a hr)
  | error e => exact ends_throw (herr e hr)

end Rules

/-- What the orchestrator is configured with. -/
structure Config where
  dataDir : Text
  chunking : ChunkingConfig

/-! ### The stages -/

/-- `check_cancel`. -/
def checkCancel (jobId : JobId) : Pipeline Unit := do
  if ← op (.isCancelled jobId) then throw .cancelled

/-- `stage`. -/
def stage (jobId : JobId) (stage : JobStage) : Pipeline Unit :=
  op (.updateJob jobId fun j => { j with stage := stage })

/-- `persist_status`: a write that fails is passed over. -/
def persistStatus (id : MeetingId) (status : ProcessingStatus) : Pipeline Unit := do
  let _ ← op (.saveProcessingStatus id status)

/-- `validate_stage`. -/
def validateStage (jobId : JobId) (ir : MeetingIr) : Pipeline Unit := do
  stage jobId .validation
  op (.send (.validationStarted jobId))
  orFail (fun errs => .ai (.validation ("; ".toList.intercalate errs))) (validate ir)
  op (.send (.validationCompleted jobId))

/-- The extraction pass of `analyze` from chunk `i` on. -/
def extractFrom (jobId : JobId) (context : AnalysisContext) (total : ℕ) :
    ℕ → List Chunk → Pipeline (List ChunkFindings)
  | _, [] => pure []
  | i, chunk :: chunks => do
    checkCancel jobId
    let found ← orFail .ai (← op (.extractChunk chunk context))
    op (.send (.extractionProgress jobId (i + 1) total))
    let rest ← extractFrom jobId context total (i + 1) chunks
    return found :: rest

/-- `analyze`. -/
def analyze (jobId : JobId) (prepared : PreparedTranscript) (context : AnalysisContext) :
    Pipeline MeetingIr := do
  let total := prepared.chunks.length
  if total = 0 then
    let ir : MeetingIr := { summary := "No transcript content was available to analyze.".toList }
    validateStage jobId ir
    return ir
  stage jobId .extraction
  op (.send (.extractionStarted jobId total))
  let findings ← extractFrom jobId context total 0 prepared.chunks
  op (.send (.extractionCompleted jobId))
  checkCancel jobId
  stage jobId .synthesis
  op (.send (.synthesisStarted jobId))
  let ir ← orFail .ai (← op (.synthesize findings prepared.normalized context))
  op (.send (.synthesisCompleted jobId))
  checkCancel jobId
  validateStage jobId ir
  return ir

/-- `media_and_asr`. -/
def mediaAndAsr (cfg : Config) (jobId : JobId) (path : Text) : Pipeline Transcript := do
  stage jobId .mediaProcessing
  op (.send (.mediaProcessingStarted jobId))
  let outDir := [cfg.dataDir, "work".toList, jobId]
  let prepared ← orFail .media (← op (.extractAudio path outDir {}))
  op (.send (.mediaProcessingCompleted jobId))
  checkCancel jobId
  stage jobId .transcription
  op (.send (.transcriptionStarted jobId))
  let transcript ← orFail .asr (← op (.transcribe { path := prepared.path }))
  op (.send (.transcriptionCompleted jobId))
  return transcript

/-- `enrich`. -/
def enrich (cfg : Config) (jobId : JobId) (meeting : Meeting) (transcript : Transcript)
    (context : AnalysisContext) : Pipeline Unit := do
  stage jobId .chunking
  op (.send (.chunkingStarted jobId))
  let prepared := prepare transcript cfg.chunking
  op (.send (.chunkingCompleted jobId prepared.chunks.length))
  checkCancel jobId
  let ir ← analyze jobId prepared context
  orFail .storage (← op (.saveMeetingIr meeting.id ir))
  stage jobId .rendering
  op (.send (.renderingStarted jobId))
  let mom := renderWithTitle ir meeting.title
  op (.send (.renderingCompleted jobId))
  stage jobId .storing
  orFail .storage (← op (.saveMom meeting.id mom))
  let meeting := { meeting with participants := ir.participants }
  orFail .storage (← op (.saveMeeting meeting))

/-! ### Runs -/

/-- The transcript of the input: given, or recognized. -/
def rawTranscriptOf (cfg : Config) (jobId : JobId) : MeetingInput → Pipeline Transcript
  | .transcript _ transcript => pure transcript
  | .audio _ path => mediaAndAsr cfg jobId path

/-- `run`. -/
def run (cfg : Config) (jobId : JobId) (input : MeetingInput) : Pipeline MeetingId := do
  op (.updateJob jobId fun j => { j with status := .running })
  let drawn ← op .newMeeting
  let meeting := Meeting.new input.title drawn.1 drawn.2
  let context : AnalysisContext := { title := some meeting.title }
  orFail .storage (← op (.saveMeeting meeting))
  op (.updateJob jobId fun j => { j with meetingId := some meeting.id })
  op (.send (.processingStarted jobId meeting.id))
  checkCancel jobId
  let rawTranscript ← rawTranscriptOf cfg jobId input
  orFail .storage (← op (.saveTranscript meeting.id rawTranscript))
  persistStatus meeting.id .processing
  checkCancel jobId
  enrich cfg jobId meeting rawTranscript context
  return meeting.id

/-- `rerun`. -/
def rerun (cfg : Config) (jobId : JobId) (meetingId : MeetingId) : Pipeline MeetingId := do
  op (.updateJob jobId fun j => { j with status := .running, meetingId := some meetingId })
  let some meeting ← orFail .storage (← op (.getMeeting meetingId))
    | throw (.storage (.backend ("cannot reprocess unknown meeting: ".toList ++ meetingId)))
  let some transcript ← orFail .storage (← op (.getTranscript meetingId))
    | throw (.storage (.backend
        ("cannot reprocess meeting without a stored transcript: ".toList ++ meetingId)))
  persistStatus meetingId .processing
  op (.send (.processingStarted jobId meetingId))
  checkCancel jobId
  let context : AnalysisContext := { title := some meeting.title }
  enrich cfg jobId meeting transcript context
  return meeting.id

/-- The status a failed run leaves: a failure of the store needs attention, any other can be retried. -/
def statusOf (err : PipelineError) : ProcessingStatus :=
  match err with
  | .storage _ => .failed err.toText
  | _ => .deferred err.toText

/-- What both failing arms of `finalize` do: the job changed, the status of its meeting written, the failure
told. -/
def reportFailure (jobId : JobId) (meetingId : Option MeetingId) (f : Job → Job) (status : ProcessingStatus)
    (message : Text) : Routine Unit := do
  perform (.updateJob jobId f)
  if let some id := meetingId then
    let _ ← perform (.saveProcessingStatus id status)
  perform (.send (.jobFailed jobId message))

/-- The first arm of `finalize`. -/
def reportSuccess (jobId : JobId) (id : MeetingId) : Routine Unit := do
  perform (.updateJob jobId fun j => { j with status := .completed, stage := .done, meetingId := some id })
  let _ ← perform (.saveProcessingStatus id .ready)
  perform (.send (.jobCompleted jobId id))

/-- `finalize`. -/
def finalize (jobId : JobId) (result : Except PipelineError MeetingId) :
    Routine (Except PipelineError MeetingId) := do
  let meetingId := (← perform (.getJob jobId)).bind Job.meetingId
  match result with
  | .ok id => reportSuccess jobId id
  | .error .cancelled =>
    reportFailure jobId meetingId (fun j => { j with status := .cancelled })
      (.deferred "cancelled".toList) "cancelled".toList
  | .error err =>
    reportFailure jobId meetingId (fun j => { j with status := .failed, error := some err.toText })
      (statusOf err) err.toText
  return result

/-- `process`. -/
def process (cfg : Config) (jobId : JobId) (input : MeetingInput) : Routine (Except PipelineError MeetingId) := do
  let result ← (run cfg jobId input).run
  finalize jobId result

/-- `reprocess`. -/
def reprocess (cfg : Config) (jobId : JobId) (meetingId : MeetingId) :
    Routine (Except PipelineError MeetingId) := do
  let result ← (rerun cfg jobId meetingId).run
  finalize jobId result

end Notely.Engine.Orchestrator
