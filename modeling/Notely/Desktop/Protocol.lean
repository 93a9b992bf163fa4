import Notely.Desktop.Dart
import Notely.Lib.Json
import Mathlib.Data.Rat.Floor

/-! # The client's side of the wire

`ipc/protocol.dart`, with `send` and `_handleLine` of `ipc/engine_client.dart`. A request is put into its
envelope; what comes back is told apart by its members and decoded, as JSON values. A cast that fails throws, and
so does an unknown response. A double is the decimal it is read from, a time stays the text it comes as. -/

namespace Notely.Desktop.Protocol

open Notely.Lib Notely.Lib.Strings Notely.Lib.Json Notely.Desktop.Dart

/-- `protocolVersion`. -/
def protocolVersion : ℤ := 3

/-! ### Casts -/

/-- What decoding throws. -/
inductive Failure
  | typeError
  | protocolException (message : Text)
  deriving DecidableEq

/-- What decoding gives. -/
abbrev Decoded := Except Failure

@[simp] theorem ok_bind {α β : Type} (a : α) (f : α → Decoded β) : (Except.ok a >>= f) = f a := pure_bind a f

@[simp] theorem map_ok {α β : Type} (f : α → β) (a : α) : f <$> (Except.ok a : Decoded α) = .ok (f a) := map_pure f a

@[simp] theorem pure_eq_ok {α : Type} (a : α) : (pure a : Decoded α) = .ok a := rfl

/-- `json[name]`: null if it is absent. -/
def index (json : Members) (name : String) : Value := nullable (Table.get name json)

/-- `as Map<String, dynamic>`. -/
def asMap : Value → Decoded Members
  | .obj m => .ok m
  | _ => .error .typeError

/-- `as List`. -/
def asList : Value → Decoded (List Value)
  | .arr vs => .ok vs
  | _ => .error .typeError

/-- `as String`. -/
def asString : Value → Decoded Text
  | .str s => .ok s
  | _ => .error .typeError

/-- `as bool`. -/
def asBool : Value → Decoded Bool
  | .bool b => .ok b
  | _ => .error .typeError

/-- A `num`. -/
inductive Num
  | int (value : ℤ)
  | double (value : ℚ)
  deriving DecidableEq

/-- What an `int` holds. -/
def IsInt (n : ℤ) : Prop := -2 ^ 63 ≤ n ∧ n < 2 ^ 63

instance (n : ℤ) : Decidable (IsInt n) := inferInstanceAs (Decidable (_ ∧ _))

/-- `as num`: an integer that is no `int` was read as a double. -/
def asNum : Value → Decoded Num
  | .int n => .ok (if IsInt n then .int n else .double n)
  | .dec q => .ok (.double q)
  | _ => .error .typeError

/-- `toDouble`. -/
def Num.toDouble : Num → ℚ
  | .int n => n
  | .double q => q

/-- `toInt`, which cuts a fraction off and stays within the range of an `int`. -/
def Num.toInt : Num → ℤ
  | .int n => n
  | .double q => max (-2 ^ 63) (min (2 ^ 63 - 1) (if 0 ≤ q then q.floor else q.ceil))

@[simp] theorem Num.toDouble_double (q : ℚ) : (Num.double q).toDouble = q := rfl

@[simp] theorem Num.toInt_int (n : ℤ) : (Num.int n).toInt = n := rfl

/-- A cast to a nullable type. -/
def orNull {α : Type} (cast : Value → Decoded α) : Value → Decoded (Option α)
  | .null => .ok none
  | v => some <$> cast v

section Casts
variable {α : Type} {cast : Value → Decoded α} {m : Members} {vs : List Value} {s : Text} {b : Bool} {v : Value}

@[simp] theorem asMap_obj : asMap (.obj m) = .ok m := rfl

@[simp] theorem asList_arr : asList (.arr vs) = .ok vs := rfl

@[simp] theorem asString_str : asString (.str s) = .ok s := rfl

@[simp] theorem asBool_bool : asBool (.bool b) = .ok b := rfl

@[simp] theorem orNull_null : orNull cast .null = .ok none := rfl

theorem orNull_of_ne (h : v ≠ .null) : orNull cast v = some <$> cast v := by
  unfold orNull
  split
  · exact absurd rfl h
  · rfl

@[simp] theorem orNull_str : orNull cast (.str s) = some <$> cast (.str s) := rfl

@[simp] theorem orNull_arr : orNull cast (.arr vs) = some <$> cast (.arr vs) := rfl

@[simp] theorem orNull_obj : orNull cast (.obj m) = some <$> cast (.obj m) := rfl

end Casts

/-! ### The domain -/

/-- `Participant`. -/
structure Participant where
  id : Text
  displayName : Option Text
  deriving DecidableEq

/-- `Participant.fromJson`. -/
def Participant.fromJson (v : Value) : Decoded Participant := do
  let json ← asMap v
  let id ← asString (index json "id")
  let displayName ← orNull asString (index json "display_name")
  return ⟨id, displayName⟩

/-- `TranscriptSegment`. -/
structure TranscriptSegment where
  speakerId : Option Text
  start : ℚ
  «end» : ℚ
  text : Text
  language : Option Text
  confidence : Option ℚ
  deriving DecidableEq

/-- `TranscriptSegment.fromJson`. -/
def TranscriptSegment.fromJson (v : Value) : Decoded TranscriptSegment := do
  let json ← asMap v
  let speakerId ← orNull asString (index json "speaker_id")
  let start ← asNum (index json "start")
  let «end» ← asNum (index json "end")
  let text ← asString (index json "text")
  let language ← orNull asString (index json "language")
  let confidence ← orNull asNum (index json "confidence")
  return ⟨speakerId, start.toDouble, «end».toDouble, text, language, confidence.map Num.toDouble⟩

/-- `TranscriptSegment.toJson`. -/
def TranscriptSegment.toJson (s : TranscriptSegment) : Value :=
  .obj (optional "speaker_id" (s.speakerId.map .str) ++
    [("start", .dec s.start), ("end", .dec s.end), ("text", .str s.text)] ++
    optional "language" (s.language.map .str) ++ optional "confidence" (s.confidence.map .dec))

/-- `Transcript`. -/
structure Transcript where
  segments : List TranscriptSegment
  deriving DecidableEq

/-- `Transcript.fromJson`. -/
def Transcript.fromJson (v : Value) : Decoded Transcript := do
  let json ← asMap v
  let segments ← orNull asList (index json "segments")
  let segments ← (segments.getD []).mapM TranscriptSegment.fromJson
  return ⟨segments⟩

/-- `Transcript.toJson`. -/
def Transcript.toJson (t : Transcript) : Value :=
  .obj [("segments", .arr (t.segments.map TranscriptSegment.toJson))]

/-- `Meeting`. -/
structure Meeting where
  id : Text
  title : Text
  createdAt : Text
  occurredAt : Option Text
  participants : List Participant
  durationSeconds : Option ℚ
  deriving DecidableEq

/-- `Meeting.fromJson`. -/
def Meeting.fromJson (v : Value) : Decoded Meeting := do
  let json ← asMap v
  let id ← asString (index json "id")
  let title ← asString (index json "title")
  let createdAt ← asString (index json "created_at")
  let occurredAt ← orNull asString (index json "occurred_at")
  let participants ← orNull asList (index json "participants")
  let participants ← (participants.getD []).mapM Participant.fromJson
  let durationSeconds ← orNull asNum (index json "duration_seconds")
  return ⟨id, title, createdAt, occurredAt, participants, durationSeconds.map Num.toDouble⟩

/-- `ProcessingState`. -/
inductive ProcessingState
  | processing
  | ready
  | deferred
  | failed
  | unknown
  deriving DecidableEq

/-- `ProcessingState.fromWire`. -/
def ProcessingState.fromWire (s : Text) : ProcessingState :=
  match String.ofList s with
  | "processing" => .processing
  | "ready" => .ready
  | "deferred" => .deferred
  | "failed" => .failed
  | _ => .unknown

/-- `FailureKind`. -/
inductive FailureKind
  | temporary
  | permanent
  | unknown
  deriving DecidableEq

/-- `FailureKind.fromWire`. -/
def FailureKind.fromWire (s : Text) : FailureKind :=
  match String.ofList s with
  | "temporary" => .temporary
  | "permanent" => .permanent
  | _ => .unknown

/-- `ProcessingStatus`. -/
structure ProcessingStatus where
  state : ProcessingState
  failureKind : Option FailureKind
  error : Option Text
  deriving DecidableEq

/-- `ProcessingStatus.fromJson`. -/
def ProcessingStatus.fromJson (v : Value) : Decoded ProcessingStatus := do
  let json ← asMap v
  let state ← orNull asString (index json "state")
  let failureKind ← orNull asString (index json "failure_kind")
  let error ← orNull asString (index json "error")
  return ⟨.fromWire (state.getD []), failureKind.map .fromWire, error⟩

/-- `MeetingSummary`. -/
structure MeetingSummary where
  meeting : Meeting
  status : Option ProcessingStatus
  deriving DecidableEq

/-- `MeetingSummary.fromJson`. -/
def MeetingSummary.fromJson (v : Value) : Decoded MeetingSummary := do
  let json ← asMap v
  let meeting ← Meeting.fromJson (index json "meeting")
  let status ← orNull ProcessingStatus.fromJson (index json "status")
  return ⟨meeting, status⟩

/-- `JobStatus`. -/
inductive JobStatus
  | queued
  | running
  | completed
  | failed
  | cancelled
  deriving DecidableEq

/-- `JobStatus.fromWire`. -/
def JobStatus.fromWire (s : Text) : JobStatus :=
  match String.ofList s with
  | "queued" => .queued
  | "running" => .running
  | "completed" => .completed
  | "failed" => .failed
  | "cancelled" => .cancelled
  | _ => .queued

/-- `JobStage`. -/
inductive JobStage
  | created
  | mediaProcessing
  | transcription
  | chunking
  | extraction
  | synthesis
  | validation
  | rendering
  | storing
  | done
  deriving DecidableEq

/-- `JobStage.fromWire`. -/
def JobStage.fromWire (s : Text) : JobStage :=
  match String.ofList s with
  | "created" => .created
  | "media_processing" => .mediaProcessing
  | "transcription" => .transcription
  | "chunking" => .chunking
  | "extraction" => .extraction
  | "synthesis" => .synthesis
  | "validation" => .validation
  | "rendering" => .rendering
  | "storing" => .storing
  | "done" => .done
  | _ => .created

/-- `Job`. -/
structure Job where
  id : Text
  status : JobStatus
  stage : JobStage
  meetingId : Option Text
  error : Option Text
  deriving DecidableEq

/-- `Job.fromJson`. -/
def Job.fromJson (v : Value) : Decoded Job := do
  let json ← asMap v
  let id ← asString (index json "id")
  let status ← asString (index json "status")
  let stage ← asString (index json "stage")
  let meetingId ← orNull asString (index json "meeting_id")
  let error ← orNull asString (index json "error")
  return ⟨id, .fromWire status, .fromWire stage, meetingId, error⟩

/-- `HealthInfo`. -/
structure HealthInfo where
  protocolVersion : ℤ
  engineOk : Bool
  llmOk : Bool
  model : Text
  asrProvider : Text
  deriving DecidableEq

/-- `HealthInfo.fromJson`. -/
def HealthInfo.fromJson (v : Value) : Decoded HealthInfo := do
  let json ← asMap v
  let protocolVersion ← asNum (index json "protocol_version")
  let engineOk ← asBool (index json "engine_ok")
  let llmOk ← asBool (index json "llm_ok")
  let model ← asString (index json "model")
  let asrProvider ← asString (index json "asr_provider")
  return ⟨protocolVersion.toInt, engineOk, llmOk, model, asrProvider⟩

/-! ### Requests -/

/-- `ProcessInput`. -/
inductive ProcessInput
  | transcriptInput (title : Option Text) (transcript : Transcript)
  | audioInput (title : Option Text) (path : Text)
  deriving DecidableEq

/-- `ProcessInput.toJson`: a title that is absent is sent as null. -/
def ProcessInput.toJson : ProcessInput → Value
  | .transcriptInput title transcript =>
    .obj [("kind", .str "transcript".toList), ("title", nullable (title.map .str)),
      ("transcript", transcript.toJson)]
  | .audioInput title path =>
    .obj [("kind", .str "audio".toList), ("title", nullable (title.map .str)), ("path", .str path)]

/-- `Request`. -/
inductive Request
  | health
  | processMeeting (input : ProcessInput)
  | getJob (jobId : Text)
  | cancelJob (jobId : Text)
  | getMeeting (meetingId : Text)
  | getTranscript (meetingId : Text)
  | getMom (meetingId : Text)
  | search (query vaultPath : Text) (limit : Option ℤ)
  | ask (question vaultPath : Text)
  | listMeetings
  | reprocessMeeting (meetingId : Text)
  deriving DecidableEq

/-- `Request.type`. -/
def Request.type : Request → String
  | .health => "Health"
  | .processMeeting _ => "ProcessMeeting"
  | .getJob _ => "GetJob"
  | .cancelJob _ => "CancelJob"
  | .getMeeting _ => "GetMeeting"
  | .getTranscript _ => "GetTranscript"
  | .getMom _ => "GetMom"
  | .search _ _ _ => "Search"
  | .ask _ _ => "Ask"
  | .listMeetings => "ListMeetings"
  | .reprocessMeeting _ => "ReprocessMeeting"

/-- `Request.params`. -/
def Request.params : Request → Option Members
  | .health | .listMeetings => none
  | .processMeeting input => some [("input", input.toJson)]
  | .getJob jobId | .cancelJob jobId => some [("job_id", .str jobId)]
  | .getMeeting meetingId | .getTranscript meetingId | .getMom meetingId | .reprocessMeeting meetingId =>
    some [("meeting_id", .str meetingId)]
  | .search query vaultPath limit =>
    some ([("query", .str query), ("vault_path", .str vaultPath)] ++ optional "limit" (limit.map .int))
  | .ask question vaultPath => some [("question", .str question), ("vault_path", .str vaultPath)]

/-- `Request.toJson`. -/
def Request.toJson (r : Request) : Members :=
  [("type", .str r.type.toList)] ++ optional "params" (r.params.map .obj)

/-- The envelope that `send` writes for the request of a number. -/
def envelope (id : ℕ) (request : Request) : Value :=
  .obj ([("protocol_version", .int protocolVersion), ("request_id", .str (digits id))] ++ request.toJson)

/-! ### Responses -/

/-- `EngineSearchHit`. -/
structure EngineSearchHit where
  path : Text
  title : Text
  startLine : ℤ
  endLine : ℤ
  snippet : Text
  deriving DecidableEq

/-- `EngineSearchHit.fromJson`. -/
def EngineSearchHit.fromJson (v : Value) : Decoded EngineSearchHit := do
  let json ← asMap v
  let path ← asString (index json "path")
  let title ← orNull asString (index json "title")
  let startLine ← orNull asNum (index json "start_line")
  let endLine ← orNull asNum (index json "end_line")
  let snippet ← orNull asString (index json "snippet")
  return ⟨path, title.getD [], (startLine.map Num.toInt).getD 0, (endLine.map Num.toInt).getD 0, snippet.getD []⟩

/-- `EngineCitation`. -/
structure EngineCitation where
  path : Text
  startLine : ℤ
  endLine : ℤ
  snippet : Text
  deriving DecidableEq

/-- `EngineCitation.fromJson`. -/
def EngineCitation.fromJson (v : Value) : Decoded EngineCitation := do
  let json ← asMap v
  let path ← asString (index json "path")
  let startLine ← orNull asNum (index json "start_line")
  let endLine ← orNull asNum (index json "end_line")
  let snippet ← orNull asString (index json "snippet")
  return ⟨path, (startLine.map Num.toInt).getD 0, (endLine.map Num.toInt).getD 0, snippet.getD []⟩

/-- `EngineAnswer`. -/
structure EngineAnswer where
  text : Text
  filesRead : List Text
  citations : List EngineCitation
  deriving DecidableEq

/-- The strings of a list: `whereType<String>`. -/
def strings (vs : List Value) : List Text :=
  vs.filterMap fun v => match v with
    | .str s => some s
    | _ => none

theorem strings_map_str (l : List Text) : strings (l.map .str) = l := by
  simp [strings, List.filterMap_map]

/-- `EngineAnswer.fromJson`. -/
def EngineAnswer.fromJson (v : Value) : Decoded EngineAnswer := do
  let json ← asMap v
  let text ← orNull asString (index json "text")
  let filesRead ← orNull asList (index json "files_read")
  let citations ← orNull asList (index json "citations")
  let citations ← (citations.getD []).mapM EngineCitation.fromJson
  return ⟨text.getD [], strings (filesRead.getD []), citations⟩

/-- `Response`. -/
inductive Response
  | healthResponse (info : HealthInfo)
  | jobAcceptedResponse (jobId : Text)
  | jobResponse (job : Job)
  | meetingResponse (meeting : Meeting)
  | transcriptResponse (transcript : Transcript)
  | momResponse (markdown : Text)
  | searchResultsResponse (hits : List EngineSearchHit)
  | answerResponse (answer : EngineAnswer)
  | meetingListResponse (meetings : List MeetingSummary)
  | errorResponse (message : Text)
  deriving DecidableEq

/-- `Response.fromJson`. -/
def Response.fromJson (json : Members) : Decoded Response := do
  let type ← orNull asString (index json "type")
  let data := index json "data"
  match type.map String.ofList with
  | some "Health" => .healthResponse <$> HealthInfo.fromJson data
  | some "JobAccepted" => .jobAcceptedResponse <$> asString (index (← asMap data) "job_id")
  | some "Job" => .jobResponse <$> Job.fromJson data
  | some "Meeting" => .meetingResponse <$> Meeting.fromJson data
  | some "Transcript" => .transcriptResponse <$> Transcript.fromJson data
  | some "Mom" => .momResponse <$> asString (index (← asMap data) "markdown")
  | some "SearchResults" => .searchResultsResponse <$> (← asList data).mapM EngineSearchHit.fromJson
  | some "Answer" => .answerResponse <$> EngineAnswer.fromJson data
  | some "MeetingList" => .meetingListResponse <$> (← asList data).mapM MeetingSummary.fromJson
  | some "Error" => .errorResponse <$> asString (index (← asMap data) "message")
  | _ => throw (.protocolException ("unknown response type: ".toList ++ type.getD "null".toList))

/-! ### Events -/

/-- `EngineEventType`. -/
inductive EngineEventType
  | jobCreated
  | processingStarted
  | mediaProcessingStarted
  | mediaProcessingCompleted
  | transcriptionStarted
  | transcriptionProgress
  | transcriptionCompleted
  | chunkingStarted
  | chunkingCompleted
  | extractionStarted
  | extractionProgress
  | extractionCompleted
  | synthesisStarted
  | synthesisCompleted
  | validationStarted
  | validationCompleted
  | renderingStarted
  | renderingCompleted
  | jobCompleted
  | jobFailed
  | unknown
  deriving DecidableEq

/-- `EngineEventType.fromWire`. -/
def EngineEventType.fromWire (s : Text) : EngineEventType :=
  match String.ofList s with
  | "JobCreated" => .jobCreated
  | "ProcessingStarted" => .processingStarted
  | "MediaProcessingStarted" => .mediaProcessingStarted
  | "MediaProcessingCompleted" => .mediaProcessingCompleted
  | "TranscriptionStarted" => .transcriptionStarted
  | "TranscriptionProgress" => .transcriptionProgress
  | "TranscriptionCompleted" => .transcriptionCompleted
  | "ChunkingStarted" => .chunkingStarted
  | "ChunkingCompleted" => .chunkingCompleted
  | "ExtractionStarted" => .extractionStarted
  | "ExtractionProgress" => .extractionProgress
  | "ExtractionCompleted" => .extractionCompleted
  | "SynthesisStarted" => .synthesisStarted
  | "SynthesisCompleted" => .synthesisCompleted
  | "ValidationStarted" => .validationStarted
  | "ValidationCompleted" => .validationCompleted
  | "RenderingStarted" => .renderingStarted
  | "RenderingCompleted" => .renderingCompleted
  | "JobCompleted" => .jobCompleted
  | "JobFailed" => .jobFailed
  | _ => .unknown

/-- `EngineEvent`. -/
structure EngineEvent where
  type : EngineEventType
  rawType : Text
  jobId : Option Text := none
  meetingId : Option Text := none
  progress : Option ℚ := none
  completed : Option ℤ := none
  total : Option ℤ := none
  chunkCount : Option ℤ := none
  message : Option Text := none
  deriving DecidableEq

/-- `EngineEvent.fromJson`. -/
def EngineEvent.fromJson (json : Members) : Decoded EngineEvent := do
  let rawType := (← orNull asString (index json "type")).getD []
  let data := (← orNull asMap (index json "data")).getD []
  let jobId ← orNull asString (index data "job_id")
  let meetingId ← orNull asString (index data "meeting_id")
  let progress ← orNull asNum (index data "progress")
  let completed ← orNull asNum (index data "completed")
  let total ← orNull asNum (index data "total")
  let chunkCount ← orNull asNum (index data "chunk_count")
  let message ← orNull asString (index data "message")
  return ⟨.fromWire rawType, rawType, jobId, meetingId, progress.map Num.toDouble, completed.map Num.toInt,
    total.map Num.toInt, chunkCount.map Num.toInt, message⟩

/-! ### Lines -/

/-- What a line leads to. -/
inductive Handled
  | malformed
  | event (e : EngineEvent)
  | undecodable (failure : Failure)
  | ignored
  | completed (requestId : Text) (r : Response)
  | failed (requestId : Text) (failure : Failure)
  | unrecognized
  deriving DecidableEq

/-- `_handleLine` on the value of a line, with the ids of the requests that wait: what it leads to, and those that
wait on. -/
def handleLine (pending : List Text) : Value → Handled × List Text
  | .obj envelope =>
    match index envelope "event", index envelope "request_id" with
    | .obj event, _ =>
      match EngineEvent.fromJson event with
      | .ok e => (.event e, pending)
      | .error failure => (.undecodable failure, pending)
    | _, .str requestId =>
      if pending.contains requestId then
        match Response.fromJson envelope with
        | .ok r => (.completed requestId r, pending.erase requestId)
        | .error failure => (.failed requestId failure, pending.erase requestId)
      else (.ignored, pending)
    | _, _ => (.unrecognized, pending)
  | _ => (.malformed, pending)

end Notely.Desktop.Protocol
