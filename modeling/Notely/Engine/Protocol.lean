import Notely.Engine.Orchestrator
import Notely.Lib.Json
import Mathlib.Algebra.Group.Int.Defs

/-! # The engine's side of the wire

`ipc/protocol.rs`, `ipc/events.rs`: the envelopes, with what serde derives for them and for the domain. A
request is read from its envelope, a response or an event is written into one, as JSON values. An enum is a
`type` with what it carries under `params` or `data`; the envelope of a request or of a response is flattened
with it. A time is rendered by `rfc3339`. -/

namespace Notely.Engine.Protocol

open Notely.Lib Notely.Lib.Strings Notely.Lib.Json Notely.Engine.Domain Notely.Engine.Jobs
open Notely.Engine.Orchestrator (Event)

/-- `PROTOCOL_VERSION`. -/
def protocolVersion : ℕ := 3

/-! ### What is sent -/

/-- `ProcessInput`. -/
inductive ProcessInput
  | transcript (title : Option Text) (transcript : Transcript)
  | audio (title : Option Text) (path : Text)
  deriving DecidableEq

/-- `Request`. -/
inductive Request
  | health
  | processMeeting (input : ProcessInput)
  | getJob (jobId : JobId)
  | cancelJob (jobId : JobId)
  | getMeeting (meetingId : MeetingId)
  | getTranscript (meetingId : MeetingId)
  | getMom (meetingId : MeetingId)
  | search (query vaultPath : Text) (limit : Option ℕ)
  | ask (question vaultPath : Text)
  | listMeetings
  | reprocessMeeting (meetingId : MeetingId)
  deriving DecidableEq

/-- `RequestEnvelope`. -/
structure RequestEnvelope where
  protocolVersion : ℕ
  requestId : Text
  request : Request
  deriving DecidableEq

/-- `HealthInfo`. -/
structure HealthInfo where
  protocolVersion : ℕ
  engineOk : Bool
  llmOk : Bool
  model : Text
  asrProvider : Text
  deriving DecidableEq

/-- `SearchHit`. -/
structure SearchHit where
  path : Text
  title : Text
  startLine : ℕ
  endLine : ℕ
  snippet : Text
  deriving DecidableEq

/-- `Citation`. -/
structure Citation where
  path : Text
  startLine : ℕ
  endLine : ℕ
  snippet : Text
  deriving DecidableEq

/-- `AskAnswer`. -/
structure AskAnswer where
  text : Text
  filesRead : List Text
  citations : List Citation
  deriving DecidableEq

/-- A `ProcessingStatus` with its `updated_at`. -/
structure StampedStatus where
  status : ProcessingStatus
  updatedAt : DateTime
  deriving DecidableEq

/-- `MeetingSummary`. -/
structure MeetingSummary where
  meeting : Meeting
  status : Option StampedStatus
  deriving DecidableEq

/-- `Response`. -/
inductive Response
  | health (info : HealthInfo)
  | jobAccepted (jobId : JobId)
  | job (job : Job)
  | meeting (meeting : Meeting)
  | transcript (transcript : Transcript)
  | mom (markdown : Text)
  | searchResults (hits : List SearchHit)
  | answer (answer : AskAnswer)
  | meetingList (meetings : List MeetingSummary)
  | error (message : Text)
  deriving DecidableEq

/-- `ResponseEnvelope`. -/
structure ResponseEnvelope where
  protocolVersion : ℕ
  requestId : Text
  response : Response
  deriving DecidableEq

/-- `EventEnvelope`. -/
structure EventEnvelope where
  protocolVersion : ℕ
  event : Event
  deriving DecidableEq

/-! ### Reading a request -/

/-- A member that must be there. -/
def required {α : Type} (read : Value → Option α) (name : String) (m : Members) : Option α :=
  (Table.get name m).bind read

/-- `Option::deserialize`: absent or null, there is none. -/
def option {α : Type} (read : Value → Option α) : Option Value → Option (Option α)
  | none | some .null => some none
  | some v => (read v).map some

/-- A member of type `Option`. -/
def possible {α : Type} (read : Value → Option α) (name : String) (m : Members) : Option (Option α) :=
  option read (Table.get name m)

/-- The members of an object. -/
def members : Value → Option Members
  | .obj m => some m
  | _ => none

/-- `String::deserialize`. -/
def string : Value → Option Text
  | .str s => some s
  | _ => none

/-- `u32::deserialize` and `usize::deserialize`, of so many bits. -/
def unsigned (bits : ℕ) : Value → Option ℕ
  | .int n => if 0 ≤ n ∧ n < 2 ^ bits then some n.toNat else none
  | _ => none

/-- `f64::deserialize`. -/
def float : Value → Option F64
  | .int n => some (.num n)
  | .dec q => some (.num q)
  | _ => none

/-- `Vec::deserialize`. -/
def items {α : Type} (read : Value → Option α) : Value → Option (List α)
  | .arr vs => vs.mapM read
  | _ => none

/-- `TranscriptSegment::deserialize`. -/
def readSegment (v : Value) : Option TranscriptSegment := do
  let m ← members v
  let speakerId ← possible string "speaker_id" m
  let start ← required float "start" m
  let «end» ← required float "end" m
  let text ← required string "text" m
  let language ← possible string "language" m
  let confidence ← possible float "confidence" m
  return ⟨speakerId, start, «end», text, language, confidence⟩

/-- `Transcript::deserialize`. -/
def readTranscript (v : Value) : Option Transcript := do
  let m ← members v
  let segments ← required (items readSegment) "segments" m
  return ⟨segments⟩

/-- `ProcessInput::deserialize`, tagged within by its `kind`. -/
def readInput (v : Value) : Option ProcessInput := do
  let m ← members v
  let kind ← required string "kind" m
  match String.ofList kind with
  | "transcript" =>
    let title ← possible string "title" m
    let transcript ← required readTranscript "transcript" m
    return .transcript title transcript
  | "audio" =>
    let title ← possible string "title" m
    let path ← required string "path" m
    return .audio title path
  | _ => none

/-- The content of a variant without fields: absent or null. -/
def unit (params : Option Value) : Option Unit :=
  match params with
  | none | some .null => some ()
  | _ => none

/-- `Request::deserialize`, tagged by `type` beside its `params`. -/
def readRequest (m : Members) : Option Request := do
  let type ← required string "type" m
  let params := Table.get "params" m
  match String.ofList type with
  | "Health" =>
    unit params
    return .health
  | "ProcessMeeting" =>
    let input ← required readInput "input" (← params.bind members)
    return .processMeeting input
  | "GetJob" =>
    let jobId ← required string "job_id" (← params.bind members)
    return .getJob jobId
  | "CancelJob" =>
    let jobId ← required string "job_id" (← params.bind members)
    return .cancelJob jobId
  | "GetMeeting" =>
    let meetingId ← required string "meeting_id" (← params.bind members)
    return .getMeeting meetingId
  | "GetTranscript" =>
    let meetingId ← required string "meeting_id" (← params.bind members)
    return .getTranscript meetingId
  | "GetMom" =>
    let meetingId ← required string "meeting_id" (← params.bind members)
    return .getMom meetingId
  | "Search" =>
    let fields ← params.bind members
    let query ← required string "query" fields
    let vaultPath ← required string "vault_path" fields
    let limit ← possible (unsigned 64) "limit" fields
    return .search query vaultPath limit
  | "Ask" =>
    let fields ← params.bind members
    let question ← required string "question" fields
    let vaultPath ← required string "vault_path" fields
    return .ask question vaultPath
  | "ListMeetings" =>
    unit params
    return .listMeetings
  | "ReprocessMeeting" =>
    let meetingId ← required string "meeting_id" (← params.bind members)
    return .reprocessMeeting meetingId
  | _ => none

/-- `RequestEnvelope::deserialize`. -/
def readEnvelope (v : Value) : Option RequestEnvelope := do
  let m ← members v
  let protocolVersion ← required (unsigned 32) "protocol_version" m
  let requestId ← required string "request_id" m
  let request ← readRequest m
  return ⟨protocolVersion, requestId, request⟩

/-! ### Writing a response or an event -/

/-- An `f64`: a NaN is written as null. -/
def writeFloat : F64 → Value
  | .nan => .null
  | .num q => .dec q

/-- A variant with its content: `type` and `data`. -/
def tagged (type : String) (data : Value) : Members := [("type", .str type.toList), ("data", data)]

def writeParticipant (p : Participant) : Value :=
  .obj ([("id", .str p.id)] ++ optional "display_name" (p.displayName.map .str))

def writeSegment (s : TranscriptSegment) : Value :=
  .obj (optional "speaker_id" (s.speakerId.map .str) ++
    [("start", writeFloat s.start), ("end", writeFloat s.end), ("text", .str s.text)] ++
    optional "language" (s.language.map .str) ++ optional "confidence" (s.confidence.map writeFloat))

def writeTranscript (t : Transcript) : Value := .obj [("segments", .arr (t.segments.map writeSegment))]

/-- The names serde gives a `ProcessingState`. -/
def stateToken : ProcessingState → Text
  | .processing => "processing".toList
  | .ready => "ready".toList
  | .deferred => "deferred".toList
  | .failed => "failed".toList

/-- The names serde gives a `FailureKind`. -/
def failureToken : FailureKind → Text
  | .temporary => "temporary".toList
  | .permanent => "permanent".toList

def writeJob (j : Job) : Value :=
  .obj ([("id", .str j.id), ("kind", .str j.kind.token), ("status", .str j.status.token),
      ("stage", .str j.stage.token)] ++
    optional "meeting_id" (j.meetingId.map .str) ++ optional "error" (j.error.map .str) ++
    [("attempts", .int j.attempts)])

def writeHealthInfo (h : HealthInfo) : Value :=
  .obj [("protocol_version", .int h.protocolVersion), ("engine_ok", .bool h.engineOk), ("llm_ok", .bool h.llmOk),
    ("model", .str h.model), ("asr_provider", .str h.asrProvider)]

def writeSearchHit (h : SearchHit) : Value :=
  .obj [("path", .str h.path), ("title", .str h.title), ("start_line", .int h.startLine),
    ("end_line", .int h.endLine), ("snippet", .str h.snippet)]

def writeCitation (c : Citation) : Value :=
  .obj [("path", .str c.path), ("start_line", .int c.startLine), ("end_line", .int c.endLine),
    ("snippet", .str c.snippet)]

def writeAnswer (a : AskAnswer) : Value :=
  .obj [("text", .str a.text), ("files_read", .arr (a.filesRead.map .str)),
    ("citations", .arr (a.citations.map writeCitation))]

section Times
variable (rfc3339 : DateTime → Text)

/-- A `DateTime<Utc>`. -/
def writeTime (t : DateTime) : Value := .str (rfc3339 t)

def writeMeeting (m : Meeting) : Value :=
  .obj ([("id", .str m.id), ("title", .str m.title), ("created_at", writeTime rfc3339 m.createdAt)] ++
    optional "occurred_at" (m.occurredAt.map (writeTime rfc3339)) ++
    [("participants", .arr (m.participants.map writeParticipant))] ++
    optional "duration_seconds" (m.durationSeconds.map writeFloat))

def writeStatus (s : StampedStatus) : Value :=
  .obj ([("state", .str (stateToken s.status.state))] ++
    optional "failure_kind" (s.status.failureKind.map fun kind => .str (failureToken kind)) ++
    optional "error" (s.status.error.map .str) ++ [("updated_at", writeTime rfc3339 s.updatedAt)])

def writeSummary (s : MeetingSummary) : Value :=
  .obj ([("meeting", writeMeeting rfc3339 s.meeting)] ++ optional "status" (s.status.map (writeStatus rfc3339)))

/-- `Response::serialize`. -/
def writeResponse : Response → Members
  | .health info => tagged "Health" (writeHealthInfo info)
  | .jobAccepted jobId => tagged "JobAccepted" (.obj [("job_id", .str jobId)])
  | .job job => tagged "Job" (writeJob job)
  | .meeting meeting => tagged "Meeting" (writeMeeting rfc3339 meeting)
  | .transcript transcript => tagged "Transcript" (writeTranscript transcript)
  | .mom markdown => tagged "Mom" (.obj [("markdown", .str markdown)])
  | .searchResults hits => tagged "SearchResults" (.arr (hits.map writeSearchHit))
  | .answer answer => tagged "Answer" (writeAnswer answer)
  | .meetingList meetings => tagged "MeetingList" (.arr (meetings.map (writeSummary rfc3339)))
  | .error message => tagged "Error" (.obj [("message", .str message)])

/-- `ResponseEnvelope::serialize`. -/
def writeResponseEnvelope (e : ResponseEnvelope) : Value :=
  .obj ([("protocol_version", .int e.protocolVersion), ("request_id", .str e.requestId)] ++
    writeResponse rfc3339 e.response)

end Times

/-- The variant of an event, and what it carries besides the job. -/
def eventParts : Event → String × Members
  | .jobCreated _ => ("JobCreated", [])
  | .processingStarted _ meetingId => ("ProcessingStarted", [("meeting_id", .str meetingId)])
  | .mediaProcessingStarted _ => ("MediaProcessingStarted", [])
  | .mediaProcessingCompleted _ => ("MediaProcessingCompleted", [])
  | .transcriptionStarted _ => ("TranscriptionStarted", [])
  | .transcriptionProgress _ progress => ("TranscriptionProgress", [("progress", writeFloat progress)])
  | .transcriptionCompleted _ => ("TranscriptionCompleted", [])
  | .chunkingStarted _ => ("ChunkingStarted", [])
  | .chunkingCompleted _ chunkCount => ("ChunkingCompleted", [("chunk_count", .int chunkCount)])
  | .extractionStarted _ chunkCount => ("ExtractionStarted", [("chunk_count", .int chunkCount)])
  | .extractionProgress _ completed total =>
    ("ExtractionProgress", [("completed", .int completed), ("total", .int total)])
  | .extractionCompleted _ => ("ExtractionCompleted", [])
  | .synthesisStarted _ => ("SynthesisStarted", [])
  | .synthesisCompleted _ => ("SynthesisCompleted", [])
  | .validationStarted _ => ("ValidationStarted", [])
  | .validationCompleted _ => ("ValidationCompleted", [])
  | .renderingStarted _ => ("RenderingStarted", [])
  | .renderingCompleted _ => ("RenderingCompleted", [])
  | .jobCompleted _ meetingId => ("JobCompleted", [("meeting_id", .str meetingId)])
  | .jobFailed _ message => ("JobFailed", [("message", .str message)])

/-- `Event::serialize`. -/
def writeEvent (e : Event) : Members :=
  tagged (eventParts e).1 (.obj ([("job_id", .str e.jobId)] ++ (eventParts e).2))

/-- `EventEnvelope::serialize`. -/
def writeEventEnvelope (e : EventEnvelope) : Value :=
  .obj [("protocol_version", .int e.protocolVersion), ("event", .obj (writeEvent e.event))]

end Notely.Engine.Protocol
