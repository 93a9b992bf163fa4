import Notely.Desktop.Dart
import Notely.Desktop.EditorState
import Notely.Engine.Orchestrator

/-! # Summarising a session

`ListeningController.summarise` of `features/listening/listening_state.dart`, with the service it calls,
`EngineSummaryService` of `services/meeting/engine_summary_service.dart`. A call is suspended while the
engine answers `ProcessMeeting`, while the job's terminal event is awaited, while the engine answers
`GetMom`, and while the editor writes the file; `Call` says where it stands. What the engine sends and when
is left open: a step of the client is a step of the editor, the start of a call, or something a suspended
call was waiting for. The review footer offers `summarise` only while no call is in flight. -/

namespace Notely.Desktop.Listening

open Notely.Lib.Strings Notely.Lib.Paths Notely.Desktop.Dart Notely.Desktop.EditorState
open Notely.Engine.Domain Notely.Engine.Jobs
open Notely.Engine.Orchestrator (Event)

/-! ### Sessions -/

/-- `TranscriptEntry`. -/
structure TranscriptEntry where
  time : Text
  speaker : Text
  text : Text
  deriving DecidableEq

/-- `ListeningState`. -/
inductive ListeningState
  | idle
  | listening
  | paused
  | reviewing
  deriving DecidableEq

/-- `MeetingSession`. -/
structure MeetingSession where
  activeFilePath : Option Path
  segments : List TranscriptEntry
  deriving DecidableEq

/-- `_toTranscript`. -/
def toTranscript (segments : List TranscriptEntry) : Transcript where
  segments := segments.mapIdx fun i s =>
    { speakerId := some s.speaker, start := .num i, «end» := .num (i + 1 : ℕ), text := s.text }

/-- `_compose`. -/
def compose (currentMarkdown mom : Text) : Text :=
  let existing := trimRight currentMarkdown
  if existing.isEmpty then mom else existing ++ ['\n', '\n'] ++ mom

/-- `fallback`: the summary made without the engine. -/
abbrev Fallback := List TranscriptEntry → Text → Text

/-! ### Calls -/

/-- How a request of the engine client ends otherwise than with the answer expected: with a
`TimeoutException`, or with another exception, shown as a text. -/
inductive RequestError
  | timeout
  | other (shown : Text)
  deriving DecidableEq

/-- `_describeError`. -/
def describeError : RequestError → Text
  | .timeout => "The engine took too long to summarise this meeting.".toList
  | .other e => "Summarise failed: ".toList ++ e

/-- `DeferredProcessingException`. -/
structure DeferredProcessing where
  meetingId : Option MeetingId
  reason : Text
  deriving DecidableEq

/-- What `_runPipeline` keeps of the events: the `meetingId` last seen, and how `done` was completed. -/
structure Heard where
  meetingId : Option MeetingId := none
  done : Option (Except DeferredProcessing MeetingId) := none
  deriving DecidableEq

/-- The listener of `_runPipeline`. -/
def Heard.hear (h : Heard) (event : Event) : Heard :=
  if h.done.isSome then h
  else
    match event with
    | .processingStarted _ meetingId => { h with meetingId := some meetingId }
    | .jobCompleted _ meetingId => { h with done := some (.ok meetingId) }
    | .jobFailed _ message => { h with done := some (.error ⟨h.meetingId, message⟩) }
    | _ => h

/-- Where a call of `summarise` stands. -/
inductive Call
  /-- No call is in flight. -/
  | none
  /-- The offline summary is being made. -/
  | offline (current : Text) (segments : List TranscriptEntry)
  /-- `await client.processMeeting(…)`. -/
  | submitting (current : Text) (transcript : Transcript) (heard : Heard)
  /-- `await done.future.timeout(…)`. -/
  | listening (current : Text) (transcript : Transcript) (jobId : JobId) (heard : Heard)
  /-- `await client.getMom(meetingId)`. -/
  | fetching (current : Text) (meetingId : MeetingId)
  /-- `await editor.setContent(markdown)`. -/
  | putting
  deriving DecidableEq

/-- The note's text a call composes with. -/
def Call.current : Call → Option Text
  | .offline current _ | .submitting current _ _ | .listening current _ _ _ | .fetching current _ => some current
  | .none | .putting => Option.none

/-- The editor and the controller, with the call in flight. -/
structure Client where
  ed : Editor
  state : ListeningState
  session : Option MeetingSession
  summarising : Bool := false
  summariseError : Option Text := Option.none
  notice : Option Text := Option.none
  call : Call := .none

namespace Client

/-- `_endSession`. -/
def endSession (c : Client) : Client := { c with state := .idle, session := none }

/-- `summarise`, up to its first suspension. -/
def summarise (c : Client) (isConnected : Bool) : Client :=
  match c.state, c.session with
  | .reviewing, some session =>
    if c.ed.openPath.isNone then c
    else
      { c with
        summarising := true
        summariseError := none
        call :=
          if isConnected then .submitting c.ed.text (toTranscript session.segments) {}
          else .offline c.ed.text session.segments }
  | _, _ => c

/-- The summary is there: `setContent`, up to its write. -/
def put (c : Client) (markdown : Text) : Client := { c with ed := c.ed.setContent markdown, call := .putting }

/-- The call ends after `setContent`. -/
def finish (c : Client) : Client := { c with summarising := false, call := .none }.endSession

/-- The call ends with a `DeferredProcessingException`. -/
def deferred (c : Client) (_ : DeferredProcessing) : Client :=
  { c with
    summarising := false
    notice := some "Saved — Notely will finish the summary when AI is available.".toList
    call := .none }.endSession

/-- The call ends with another exception: the session stays in review. -/
def failed (c : Client) (e : RequestError) : Client :=
  { c with summariseError := some (describeError e), summarising := false, call := .none }

/-- `_runPipeline` waits for `done`, or goes on if it is completed. -/
def await (c : Client) (current : Text) (transcript : Transcript) (jobId : JobId) (heard : Heard) : Client :=
  match heard.done with
  | none => { c with call := .listening current transcript jobId heard }
  | some (.ok meetingId) => { c with call := .fetching current meetingId }
  | some (.error e) => c.deferred e

/-- An event reaches the client. -/
def hear (c : Client) (event : Event) : Client :=
  match c.call with
  | .submitting current transcript heard => { c with call := .submitting current transcript (heard.hear event) }
  | .listening current transcript jobId heard => c.await current transcript jobId (heard.hear event)
  | _ => c

inductive Action
  /-- The editor takes a step of its own. -/
  | editor (a : Editor.Action)
  | summarise (isConnected : Bool)
  /-- The offline summary is made. -/
  | summarised
  /-- The engine has accepted the request. -/
  | accepted (jobId : JobId)
  /-- The request fails. -/
  | requestFailed (e : RequestError)
  | hear (event : Event)
  /-- The time the call waits for `done` is over. -/
  | timeout
  /-- `GetMom` ends. -/
  | fetched (result : Except RequestError Text)
  /-- `setContent` returns: its write, if there was one, is done. -/
  | written

/-- The writes `setContent` waits for. -/
def IsPut : EditorState.Task → Prop
  | .writing _ _ caller => caller = .setContent
  | _ => False

instance : DecidablePred IsPut
  | .writing _ _ caller => inferInstanceAs (Decidable (caller = .setContent))
  | .flushed _ | .reading _ => isFalse id

/-- The text `engine did not finish job $jobId in time`. -/
def timeoutReason (jobId : JobId) : Text := "engine did not finish job ".toList ++ jobId ++ " in time".toList

def step (fallback : Fallback) (c : Client) : Action → Option Client
  | .editor (.setContent _) => none
  | .editor a => (c.ed.step a).map fun ed => { c with ed := ed }
  | .summarise isConnected => if c.call = .none then some (c.summarise isConnected) else none
  | .summarised =>
    match c.call with
    | .offline current segments => some (c.put (fallback segments current))
    | _ => none
  | .accepted jobId =>
    match c.call with
    | .submitting current transcript heard => some (c.await current transcript jobId heard)
    | _ => none
  | .requestFailed e =>
    match c.call with
    | .submitting _ _ _ => some (c.failed e)
    | _ => none
  | .hear event => some (c.hear event)
  | .timeout =>
    match c.call with
    | .listening _ _ jobId heard => some (c.deferred ⟨heard.meetingId, timeoutReason jobId⟩)
    | _ => none
  | .fetched result =>
    match c.call, result with
    | .fetching current _, .ok mom => some (c.put (compose current mom))
    | .fetching _ _, .error e => some (c.failed e)
    | _, _ => none
  | .written => if c.call = .putting ∧ ∀ t ∈ c.ed.tasks, ¬ IsPut t then some c.finish else none

end Client

end Notely.Desktop.Listening
