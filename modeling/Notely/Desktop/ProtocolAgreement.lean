import Notely.Desktop.Protocol
import Notely.Engine.Protocol

/-! # The two sides of the wire agree

What the client of `Desktop/Protocol` sends is what the engine of `Engine/Protocol` reads, and what the engine
writes is what the client decodes. `sent` is the request of the engine that a request of the client stands for;
`mirrorResponse` and `mirrorEvent` give the client's value for each of the engine's, with the fields the client
declares. Both sides are compared at the JSON values; their texts are left to `jsonEncode` and `serde_json`.

* `readEnvelope_envelope`: a request arrives.
* `fromJson_writeResponse`, `fromJson_writeEvent`: a response and an event are decoded to their mirrors.
* `protocols_agree`: so it is with the envelopes. -/

namespace Notely.Desktop.ProtocolAgreement

open Notely.Lib Notely.Lib.Strings Notely.Lib.Json Notely.Engine.Domain Notely.Engine.Protocol
open Notely.Desktop.Dart (digits)
open Notely.Desktop.Protocol (Decoded Num asMap asList asString asNum asBool orNull index IsInt envelope
  handleLine strings_map_str)
open Notely.Engine.Orchestrator (Event)

/-! ### From the client to the engine -/

/-- The segment that is sent. -/
def sentSegment (s : Protocol.TranscriptSegment) : TranscriptSegment :=
  ⟨s.speakerId, .num s.start, .num s.end, s.text, s.language, s.confidence.map .num⟩

/-- The transcript that is sent. -/
def sentTranscript (t : Protocol.Transcript) : Transcript := ⟨t.segments.map sentSegment⟩

/-- The input that is sent. -/
def sentInput : Protocol.ProcessInput → ProcessInput
  | .transcriptInput title transcript => .transcript title (sentTranscript transcript)
  | .audioInput title path => .audio title path

/-- The request that is sent. -/
def sent : Protocol.Request → Request
  | .health => .health
  | .processMeeting input => .processMeeting (sentInput input)
  | .getJob jobId => .getJob jobId
  | .cancelJob jobId => .cancelJob jobId
  | .getMeeting meetingId => .getMeeting meetingId
  | .getTranscript meetingId => .getTranscript meetingId
  | .getMom meetingId => .getMom meetingId
  | .search query vaultPath limit => .search query vaultPath (limit.map Int.toNat)
  | .ask question vaultPath => .ask question vaultPath
  | .listMeetings => .listMeetings
  | .reprocessMeeting meetingId => .reprocessMeeting meetingId

/-- A limit is an `int` that is not negative. -/
def Sendable : Protocol.Request → Prop
  | .search _ _ limit => ∀ n ∈ limit, 0 ≤ n ∧ IsInt n
  | _ => True

section Requests
variable {α β γ : Type}

theorem option_map {read : Value → Option γ} {write : α → Value} {g : α → γ} {o : Option α}
    (h : ∀ a ∈ o, write a ≠ .null ∧ read (write a) = some (g a)) : option read (o.map write) = some (o.map g) := by
  cases o with
  | none => rfl
  | some a =>
    obtain ⟨hne, hread⟩ := h a rfl
    rw [Option.map_some, option, hread]
    · rfl
    · exact hne

@[simp] theorem option_string (o : Option Text) : option string (o.map .str) = some o := by
  cases o <;> rfl

@[simp] theorem option_float (o : Option ℚ) : option float (o.map .dec) = some (o.map F64.num) :=
  option_map (by simp [float])

theorem option_limit {limit : Option ℤ} (h : ∀ n ∈ limit, 0 ≤ n ∧ IsInt n) :
    option (unsigned 64) (limit.map .int) = some (limit.map Int.toNat) := by
  refine option_map fun n hn => ⟨by simp, ?_⟩
  obtain ⟨hpos, -, hlt⟩ := h n hn
  have hrange : 0 ≤ n ∧ n < 2 ^ 64 := ⟨hpos, by omega⟩
  exact if_pos hrange

theorem readSegment_toJson (s : Protocol.TranscriptSegment) : readSegment s.toJson = some (sentSegment s) := by
  simp [readSegment, Protocol.TranscriptSegment.toJson, members, possible, required, Table.get, string, float,
    sentSegment]

theorem readTranscript_toJson (t : Protocol.Transcript) : readTranscript t.toJson = some (sentTranscript t) := by
  have h : (t.segments.map Protocol.TranscriptSegment.toJson).mapM readSegment = some (t.segments.map sentSegment) :=
    mapM_map_pure fun s _ => readSegment_toJson s
  simp [readTranscript, Protocol.Transcript.toJson, members, required, items, Table.get, h, sentTranscript]

@[simp] theorem option_nullable (o : Option Text) : option string (some (nullable (o.map .str))) = some o := by
  cases o <;> rfl

theorem readInput_toJson (input : Protocol.ProcessInput) : readInput input.toJson = some (sentInput input) := by
  cases input with
  | transcriptInput title transcript =>
    have h : readTranscript transcript.toJson = some (sentTranscript transcript) := readTranscript_toJson transcript
    simp [readInput, Protocol.ProcessInput.toJson, members, required, possible, string, Table.get, h, sentInput]
  | audioInput title path =>
    simp [readInput, Protocol.ProcessInput.toJson, members, required, possible, string, Table.get, sentInput]

theorem readRequest_toJson {r : Protocol.Request} {m : Members} (h : Sendable r)
    (htype : Table.get "type" m = Table.get "type" r.toJson)
    (hparams : Table.get "params" m = Table.get "params" r.toJson) : readRequest m = some (sent r) := by
  unfold readRequest required
  rw [htype, hparams]
  cases r with
  | processMeeting input =>
    have hinput : readInput input.toJson = some (sentInput input) := readInput_toJson input
    simp [Protocol.Request.toJson, Protocol.Request.type, Protocol.Request.params, members, string, Table.get, sent,
      hinput]
  | search query vaultPath limit =>
    have hlimit : option (unsigned 64) (limit.map .int) = some (limit.map Int.toNat) := option_limit h
    simp [Protocol.Request.toJson, Protocol.Request.type, Protocol.Request.params, members, string, possible,
      Table.get, sent, hlimit]
  | _ =>
    simp [Protocol.Request.toJson, Protocol.Request.type, Protocol.Request.params, members, string, unit, Table.get,
      sent]

/-- **A request arrives**: the engine reads from the envelope what was sent. -/
theorem readEnvelope_envelope (id : ℕ) {r : Protocol.Request} (h : Sendable r) :
    readEnvelope (envelope id r) = some ⟨Engine.Protocol.protocolVersion, digits id, sent r⟩ := by
  have hrequest : readRequest ([("protocol_version", .int Protocol.protocolVersion),
      ("request_id", .str (digits id))] ++ r.toJson) = some (sent r) :=
    readRequest_toJson h (by simp [Table.get]) (by simp [Table.get])
  rw [envelope, readEnvelope]
  simp only [members, Option.bind_eq_bind, Option.bind_some, hrequest]
  simp [required, unsigned, string, Table.get, Protocol.protocolVersion, Engine.Protocol.protocolVersion]

end Requests

/-! ### From the engine to the client -/

/-- The number of a float. -/
def mirrorFloat : F64 → ℚ
  | .nan => 0
  | .num q => q

def mirrorParticipant (p : Participant) : Protocol.Participant := ⟨p.id, p.displayName⟩

def mirrorSegment (s : TranscriptSegment) : Protocol.TranscriptSegment :=
  ⟨s.speakerId, mirrorFloat s.start, mirrorFloat s.end, s.text, s.language, s.confidence.map mirrorFloat⟩

def mirrorTranscript (t : Transcript) : Protocol.Transcript := ⟨t.segments.map mirrorSegment⟩

def mirrorState : ProcessingState → Protocol.ProcessingState
  | .processing => .processing
  | .ready => .ready
  | .deferred => .deferred
  | .failed => .failed

def mirrorFailureKind : FailureKind → Protocol.FailureKind
  | .temporary => .temporary
  | .permanent => .permanent

def mirrorStatus (s : StampedStatus) : Protocol.ProcessingStatus :=
  ⟨mirrorState s.status.state, s.status.failureKind.map mirrorFailureKind, s.status.error⟩

def mirrorJobStatus : Engine.Jobs.JobStatus → Protocol.JobStatus
  | .queued => .queued
  | .running => .running
  | .completed => .completed
  | .failed => .failed
  | .cancelled => .cancelled

def mirrorJobStage : Engine.Jobs.JobStage → Protocol.JobStage
  | .created => .created
  | .mediaProcessing => .mediaProcessing
  | .transcription => .transcription
  | .chunking => .chunking
  | .extraction => .extraction
  | .synthesis => .synthesis
  | .validation => .validation
  | .rendering => .rendering
  | .storing => .storing
  | .done => .done

def mirrorJob (j : Engine.Jobs.Job) : Protocol.Job :=
  ⟨j.id, mirrorJobStatus j.status, mirrorJobStage j.stage, j.meetingId, j.error⟩

def mirrorHealthInfo (h : HealthInfo) : Protocol.HealthInfo :=
  ⟨h.protocolVersion, h.engineOk, h.llmOk, h.model, h.asrProvider⟩

def mirrorSearchHit (h : SearchHit) : Protocol.EngineSearchHit :=
  ⟨h.path, h.title, h.startLine, h.endLine, h.snippet⟩

def mirrorCitation (c : Citation) : Protocol.EngineCitation := ⟨c.path, c.startLine, c.endLine, c.snippet⟩

def mirrorAnswer (a : AskAnswer) : Protocol.EngineAnswer := ⟨a.text, a.filesRead, a.citations.map mirrorCitation⟩

section Responses
variable (rfc3339 : DateTime → Text)

def mirrorMeeting (m : Meeting) : Protocol.Meeting :=
  ⟨m.id, m.title, rfc3339 m.createdAt, m.occurredAt.map rfc3339, m.participants.map mirrorParticipant,
    m.durationSeconds.map mirrorFloat⟩

def mirrorSummary (s : MeetingSummary) : Protocol.MeetingSummary :=
  ⟨mirrorMeeting rfc3339 s.meeting, s.status.map mirrorStatus⟩

/-- The response that is decoded. -/
def mirrorResponse : Response → Protocol.Response
  | .health info => .healthResponse (mirrorHealthInfo info)
  | .jobAccepted jobId => .jobAcceptedResponse jobId
  | .job job => .jobResponse (mirrorJob job)
  | .meeting meeting => .meetingResponse (mirrorMeeting rfc3339 meeting)
  | .transcript transcript => .transcriptResponse (mirrorTranscript transcript)
  | .mom markdown => .momResponse markdown
  | .searchResults hits => .searchResultsResponse (hits.map mirrorSearchHit)
  | .answer answer => .answerResponse (mirrorAnswer answer)
  | .meetingList meetings => .meetingListResponse (meetings.map (mirrorSummary rfc3339))
  | .error message => .errorResponse message

end Responses

/-- The kind of an event. -/
def mirrorType : Event → Protocol.EngineEventType
  | .jobCreated _ => .jobCreated
  | .processingStarted _ _ => .processingStarted
  | .mediaProcessingStarted _ => .mediaProcessingStarted
  | .mediaProcessingCompleted _ => .mediaProcessingCompleted
  | .transcriptionStarted _ => .transcriptionStarted
  | .transcriptionProgress _ _ => .transcriptionProgress
  | .transcriptionCompleted _ => .transcriptionCompleted
  | .chunkingStarted _ => .chunkingStarted
  | .chunkingCompleted _ _ => .chunkingCompleted
  | .extractionStarted _ _ => .extractionStarted
  | .extractionProgress _ _ _ => .extractionProgress
  | .extractionCompleted _ => .extractionCompleted
  | .synthesisStarted _ => .synthesisStarted
  | .synthesisCompleted _ => .synthesisCompleted
  | .validationStarted _ => .validationStarted
  | .validationCompleted _ => .validationCompleted
  | .renderingStarted _ => .renderingStarted
  | .renderingCompleted _ => .renderingCompleted
  | .jobCompleted _ _ => .jobCompleted
  | .jobFailed _ _ => .jobFailed

/-- The event that is decoded, under the variant's name. -/
def mirrorEvent (e : Event) : Protocol.EngineEvent :=
  let mirror : Protocol.EngineEvent :=
    { type := mirrorType e, rawType := (eventParts e).1.toList, jobId := some e.jobId }
  match e with
  | .processingStarted _ meetingId | .jobCompleted _ meetingId => { mirror with meetingId := some meetingId }
  | .transcriptionProgress _ progress => { mirror with progress := some (mirrorFloat progress) }
  | .chunkingCompleted _ chunkCount | .extractionStarted _ chunkCount =>
    { mirror with chunkCount := some chunkCount }
  | .extractionProgress _ completed total => { mirror with completed := some completed, total := some total }
  | .jobFailed _ message => { mirror with message := some message }
  | _ => mirror

/-! ### What the wire carries exactly -/

/-- A float is not a NaN, which would be written as null. -/
def Finite (x : F64) : Prop := x ≠ .nan

/-- An integer is an `int`. -/
def Small (n : ℕ) : Prop := n < 2 ^ 63

def FiniteSegment (s : TranscriptSegment) : Prop := Finite s.start ∧ Finite s.end ∧ ∀ c ∈ s.confidence, Finite c

def FiniteMeeting (m : Meeting) : Prop := ∀ d ∈ m.durationSeconds, Finite d

/-- The numbers of a response are finite, its integers below `2 ^ 63`. -/
def Plain : Response → Prop
  | .health info => Small info.protocolVersion
  | .meeting meeting => FiniteMeeting meeting
  | .transcript transcript => ∀ s ∈ transcript.segments, FiniteSegment s
  | .searchResults hits => ∀ h ∈ hits, Small h.startLine ∧ Small h.endLine
  | .answer answer => ∀ c ∈ answer.citations, Small c.startLine ∧ Small c.endLine
  | .meetingList meetings => ∀ s ∈ meetings, FiniteMeeting s.meeting
  | _ => True

/-- So are those of an event. -/
def PlainEvent : Event → Prop
  | .transcriptionProgress _ progress => Finite progress
  | .chunkingCompleted _ chunkCount | .extractionStarted _ chunkCount => Small chunkCount
  | .extractionProgress _ completed total => Small completed ∧ Small total
  | _ => True

section Casts
variable {α β γ : Type}

theorem orNull_map {cast : Value → Decoded β} {write : α → Value} {g : α → β} {o : Option α}
    (h : ∀ a ∈ o, write a ≠ .null ∧ cast (write a) = .ok (g a)) :
    orNull cast (nullable (o.map write)) = .ok (o.map g) := by
  cases o with
  | none => rfl
  | some a =>
    obtain ⟨hne, hcast⟩ := h a rfl
    simp [Protocol.orNull_of_ne hne, hcast]

@[simp] theorem orNull_token {token : α → Text} {o : Option α} :
    orNull asString (nullable (o.map fun a => .str (token a))) = .ok (o.map token) :=
  orNull_map (by simp)

@[simp] theorem orNull_asString (o : Option Text) : orNull asString (nullable (o.map .str)) = .ok o := by
  cases o <;> rfl

theorem asNum_writeFloat {x : F64} (h : Finite x) : asNum (writeFloat x) = .ok (.double (mirrorFloat x)) := by
  cases x with
  | nan => exact absurd rfl h
  | num q => rfl

theorem orNull_writeFloat {o : Option F64} (h : ∀ x ∈ o, Finite x) :
    orNull asNum (nullable (o.map writeFloat)) = .ok (o.map fun x => .double (mirrorFloat x)) := by
  refine orNull_map fun x hx => ⟨?_, asNum_writeFloat (h x hx)⟩
  cases x with
  | nan => exact absurd rfl (h _ hx)
  | num q => simp [writeFloat]

@[simp] theorem orNull_time (rfc3339 : DateTime → Text) (o : Option DateTime) :
    orNull asString (nullable (o.map (writeTime rfc3339))) = .ok (o.map rfc3339) :=
  orNull_map (by simp [writeTime])

theorem asNum_small {n : ℕ} (h : Small n) : asNum (.int n) = .ok (.int n) := by
  have hn : IsInt n := ⟨by omega, by unfold Small at h; omega⟩
  simp [asNum, hn]

theorem orNull_small {n : ℕ} (h : Small n) : orNull asNum (.int n) = .ok (some (.int n)) := by
  rw [Protocol.orNull_of_ne (by simp), asNum_small h, Protocol.map_ok]

/-- The items of a list, read one by one. -/
theorem mapM_fromJson {fromJson : Value → Decoded γ} {write : α → Value} {g : α → γ} {l : List α}
    (h : ∀ a ∈ l, fromJson (write a) = .ok (g a)) : (l.map write).mapM fromJson = .ok (l.map g) :=
  mapM_map_pure h

end Casts

section Mirrors
variable {rfc3339 : DateTime → Text}

theorem fromJson_writeParticipant (p : Participant) :
    Protocol.Participant.fromJson (writeParticipant p) = .ok (mirrorParticipant p) := by
  simp [Protocol.Participant.fromJson, writeParticipant, index, Table.get, mirrorParticipant]

theorem fromJson_writeSegment {s : TranscriptSegment} (h : FiniteSegment s) :
    Protocol.TranscriptSegment.fromJson (writeSegment s) = .ok (mirrorSegment s) := by
  obtain ⟨hstart, hend, hconfidence⟩ := h
  simp [Protocol.TranscriptSegment.fromJson, writeSegment, index, Table.get, asNum_writeFloat hstart,
    asNum_writeFloat hend, orNull_writeFloat hconfidence, mirrorSegment, Function.comp_def]

theorem fromJson_writeTranscript {t : Transcript} (h : ∀ s ∈ t.segments, FiniteSegment s) :
    Protocol.Transcript.fromJson (writeTranscript t) = .ok (mirrorTranscript t) := by
  have hsegments : (t.segments.map writeSegment).mapM Protocol.TranscriptSegment.fromJson =
      .ok (t.segments.map mirrorSegment) := mapM_fromJson fun s hs => fromJson_writeSegment (h s hs)
  simp [Protocol.Transcript.fromJson, writeTranscript, index, Table.get, hsegments, mirrorTranscript]

theorem fromJson_writeMeeting {m : Meeting} (h : FiniteMeeting m) :
    Protocol.Meeting.fromJson (writeMeeting rfc3339 m) = .ok (mirrorMeeting rfc3339 m) := by
  have hparticipants : (m.participants.map writeParticipant).mapM Protocol.Participant.fromJson =
      .ok (m.participants.map mirrorParticipant) := mapM_fromJson fun p _ => fromJson_writeParticipant p
  simp [Protocol.Meeting.fromJson, writeMeeting, index, Table.get, writeTime, hparticipants, orNull_writeFloat h,
    mirrorMeeting, Function.comp_def]

theorem fromWire_stateToken (s : ProcessingState) :
    Protocol.ProcessingState.fromWire (stateToken s) = mirrorState s := by
  cases s <;> rfl

theorem fromWire_failureToken (k : FailureKind) :
    Protocol.FailureKind.fromWire (failureToken k) = mirrorFailureKind k := by
  cases k <;> rfl

theorem fromWire_statusToken (s : Engine.Jobs.JobStatus) :
    Protocol.JobStatus.fromWire s.token = mirrorJobStatus s := by
  cases s <;> rfl

theorem fromWire_stageToken (s : Engine.Jobs.JobStage) :
    Protocol.JobStage.fromWire s.token = mirrorJobStage s := by
  cases s <;> rfl

theorem fromJson_writeStatus (s : StampedStatus) :
    Protocol.ProcessingStatus.fromJson (writeStatus rfc3339 s) = .ok (mirrorStatus s) := by
  simp [Protocol.ProcessingStatus.fromJson, writeStatus, index, Table.get, mirrorStatus, fromWire_stateToken,
    fromWire_failureToken, Function.comp_def]

theorem fromJson_writeSummary {s : MeetingSummary} (h : FiniteMeeting s.meeting) :
    Protocol.MeetingSummary.fromJson (writeSummary rfc3339 s) = .ok (mirrorSummary rfc3339 s) := by
  have hstatus : orNull Protocol.ProcessingStatus.fromJson (nullable (s.status.map (writeStatus rfc3339))) =
      .ok (s.status.map mirrorStatus) :=
    orNull_map fun s _ => ⟨by simp [writeStatus], fromJson_writeStatus s⟩
  simp [Protocol.MeetingSummary.fromJson, writeSummary, index, Table.get, fromJson_writeMeeting h, hstatus,
    mirrorSummary]

theorem fromJson_writeJob (j : Engine.Jobs.Job) : Protocol.Job.fromJson (writeJob j) = .ok (mirrorJob j) := by
  simp [Protocol.Job.fromJson, writeJob, index, Table.get, fromWire_statusToken, fromWire_stageToken, mirrorJob]

theorem fromJson_writeHealthInfo {h : HealthInfo} (hsmall : Small h.protocolVersion) :
    Protocol.HealthInfo.fromJson (writeHealthInfo h) = .ok (mirrorHealthInfo h) := by
  simp [Protocol.HealthInfo.fromJson, writeHealthInfo, index, Table.get, asNum_small hsmall,
    mirrorHealthInfo]

theorem fromJson_writeSearchHit {h : SearchHit} (hsmall : Small h.startLine ∧ Small h.endLine) :
    Protocol.EngineSearchHit.fromJson (writeSearchHit h) = .ok (mirrorSearchHit h) := by
  simp [Protocol.EngineSearchHit.fromJson, writeSearchHit, index, Table.get, orNull_small hsmall.1,
    orNull_small hsmall.2, mirrorSearchHit]

theorem fromJson_writeCitation {c : Citation} (hsmall : Small c.startLine ∧ Small c.endLine) :
    Protocol.EngineCitation.fromJson (writeCitation c) = .ok (mirrorCitation c) := by
  simp [Protocol.EngineCitation.fromJson, writeCitation, index, Table.get, orNull_small hsmall.1,
    orNull_small hsmall.2, mirrorCitation]

theorem fromJson_writeAnswer {a : AskAnswer} (h : ∀ c ∈ a.citations, Small c.startLine ∧ Small c.endLine) :
    Protocol.EngineAnswer.fromJson (writeAnswer a) = .ok (mirrorAnswer a) := by
  have hcitations : (a.citations.map writeCitation).mapM Protocol.EngineCitation.fromJson =
      .ok (a.citations.map mirrorCitation) := mapM_fromJson fun c hc => fromJson_writeCitation (h c hc)
  simp [Protocol.EngineAnswer.fromJson, writeAnswer, index, Table.get, strings_map_str, hcitations, mirrorAnswer]

/-- **A response is decoded to its mirror**, in whatever envelope it stands. -/
theorem fromJson_writeResponse {r : Response} {json : Members} (h : Plain r)
    (htype : Table.get "type" json = Table.get "type" (writeResponse rfc3339 r))
    (hdata : Table.get "data" json = Table.get "data" (writeResponse rfc3339 r)) :
    Protocol.Response.fromJson json = .ok (mirrorResponse rfc3339 r) := by
  unfold Protocol.Response.fromJson index
  rw [htype, hdata]
  cases r with
  | health info => simp [writeResponse, tagged, Table.get, fromJson_writeHealthInfo h, mirrorResponse]
  | jobAccepted jobId => simp [writeResponse, tagged, Table.get, mirrorResponse]
  | job job => simp [writeResponse, tagged, Table.get, fromJson_writeJob, mirrorResponse]
  | meeting meeting => simp [writeResponse, tagged, Table.get, fromJson_writeMeeting h, mirrorResponse]
  | transcript transcript => simp [writeResponse, tagged, Table.get, fromJson_writeTranscript h, mirrorResponse]
  | mom markdown => simp [writeResponse, tagged, Table.get, mirrorResponse]
  | searchResults hits =>
    have hhits : (hits.map writeSearchHit).mapM Protocol.EngineSearchHit.fromJson = .ok (hits.map mirrorSearchHit) :=
      mapM_fromJson fun hit hhit => fromJson_writeSearchHit (h hit hhit)
    simp [writeResponse, tagged, Table.get, hhits, mirrorResponse]
  | answer answer => simp [writeResponse, tagged, Table.get, fromJson_writeAnswer h, mirrorResponse]
  | meetingList meetings =>
    have hmeetings : (meetings.map (writeSummary rfc3339)).mapM Protocol.MeetingSummary.fromJson =
        .ok (meetings.map (mirrorSummary rfc3339)) :=
      mapM_fromJson fun s hs => fromJson_writeSummary (h s hs)
    simp [writeResponse, tagged, Table.get, hmeetings, mirrorResponse]
  | error message => simp [writeResponse, tagged, Table.get, mirrorResponse]

theorem fromWire_eventParts (e : Event) :
    Protocol.EngineEventType.fromWire (eventParts e).1.toList = mirrorType e := by
  cases e <;> simp only [Protocol.EngineEventType.fromWire, eventParts, mirrorType, String.ofList_toList]

/-- **An event is decoded to its mirror.** -/
theorem fromJson_writeEvent {e : Event} (h : PlainEvent e) :
    Protocol.EngineEvent.fromJson (writeEvent e) = .ok (mirrorEvent e) := by
  have htype : Protocol.EngineEventType.fromWire (eventParts e).1.toList = mirrorType e := fromWire_eventParts e
  unfold Protocol.EngineEvent.fromJson writeEvent
  simp only [tagged, index, Table.get, reduceIte, String.reduceEq, nullable_some, Protocol.orNull_str,
    Protocol.asString_str, Protocol.map_ok, Protocol.ok_bind, Option.getD_some, htype]
  cases e with
  | transcriptionProgress jobId progress =>
    have hprogress : orNull asNum (writeFloat progress) = .ok (some (.double (mirrorFloat progress))) :=
      orNull_writeFloat (o := some progress) (by rintro x ⟨⟩; exact h)
    simp [eventParts, Table.get, mirrorEvent, hprogress]
  | chunkingCompleted jobId chunkCount => simp [eventParts, Table.get, mirrorEvent, orNull_small h]
  | extractionStarted jobId chunkCount => simp [eventParts, Table.get, mirrorEvent, orNull_small h]
  | extractionProgress jobId completed total =>
    simp [eventParts, Table.get, mirrorEvent, orNull_small h.1, orNull_small h.2]
  | _ => simp [eventParts, Table.get, mirrorEvent]

end Mirrors

/-! ### Envelopes -/

section Envelopes
variable {rfc3339 : DateTime → Text} {pending : List Text}

theorem handleLine_writeEventEnvelope {e : Event} (h : PlainEvent e) :
    handleLine pending (writeEventEnvelope ⟨Engine.Protocol.protocolVersion, e⟩) =
      (.event (mirrorEvent e), pending) := by
  simp [handleLine, writeEventEnvelope, index, Table.get, fromJson_writeEvent h]

theorem handleLine_writeResponseEnvelope {r : Response} {id : Text} (h : Plain r) (hid : id ∈ pending) :
    handleLine pending (writeResponseEnvelope rfc3339 ⟨Engine.Protocol.protocolVersion, id, r⟩) =
      (.completed id (mirrorResponse rfc3339 r), pending.erase id) := by
  have hnone : ∀ n : String, n ≠ "type" → n ≠ "data" → Table.get n (writeResponse rfc3339 r) = none := by
    intro n htype hdata
    cases r <;> simp [writeResponse, tagged, Table.get, htype.symm, hdata.symm]
  have hresponse : Protocol.Response.fromJson ([("protocol_version", .int Engine.Protocol.protocolVersion),
      ("request_id", .str id)] ++ writeResponse rfc3339 r) = .ok (mirrorResponse rfc3339 r) :=
    fromJson_writeResponse h (by simp [Table.get]) (by simp [Table.get])
  unfold handleLine writeResponseEnvelope
  simp only [hresponse]
  simp [index, Table.get, hnone, hid]

end Envelopes

/-- **The two sides agree**: the engine reads the envelope of a request as that request, and the client decodes a
response to the request that waits for it, or an event, to its mirror. -/
theorem protocols_agree (rfc3339 : DateTime → Text) (pending : List Text) :
    (∀ id r, Sendable r →
      readEnvelope (envelope id r) = some ⟨Engine.Protocol.protocolVersion, digits id, sent r⟩) ∧
    (∀ id ∈ pending, ∀ r, Plain r →
      handleLine pending (writeResponseEnvelope rfc3339 ⟨Engine.Protocol.protocolVersion, id, r⟩) =
        (.completed id (mirrorResponse rfc3339 r), pending.erase id)) ∧
    ∀ e, PlainEvent e →
      handleLine pending (writeEventEnvelope ⟨Engine.Protocol.protocolVersion, e⟩) =
        (.event (mirrorEvent e), pending) :=
  ⟨fun id _ h => readEnvelope_envelope id h, fun _ hid _ h => handleLine_writeResponseEnvelope h hid,
    fun _ h => handleLine_writeEventEnvelope h⟩

/-- A search with a limit, its hit, and an event half way. -/
theorem search_agreed :
    readEnvelope (envelope 7 (.search "plan".toList "/vault".toList (some 5))) =
      some ⟨3, digits 7, .search "plan".toList "/vault".toList (some 5)⟩ ∧
    handleLine [digits 7] (writeResponseEnvelope digits
      ⟨3, digits 7, .searchResults [⟨"/vault/a.md".toList, "A".toList, 2, 4, "plan".toList⟩]⟩) =
      (.completed (digits 7)
        (.searchResultsResponse [⟨"/vault/a.md".toList, "A".toList, 2, 4, "plan".toList⟩]), []) ∧
    handleLine [] (writeEventEnvelope ⟨3, .transcriptionProgress "j".toList (.num (1 / 2))⟩) =
      (.event { type := .transcriptionProgress, rawType := "TranscriptionProgress".toList, jobId := some "j".toList,
                progress := some (1 / 2) }, []) := by
  refine ⟨?_, ?_, ?_⟩
  · exact (protocols_agree digits []).1 7 _ (by simp [Sendable, IsInt])
  · have h := (protocols_agree digits [digits 7]).2.1 (digits 7) (by simp)
      (.searchResults [⟨"/vault/a.md".toList, "A".toList, 2, 4, "plan".toList⟩]) (by simp [Plain, Small])
    simpa [mirrorResponse, mirrorSearchHit, Engine.Protocol.protocolVersion] using h
  · exact (protocols_agree digits []).2.2 _ (by simp [PlainEvent, Finite])

end Notely.Desktop.ProtocolAgreement
