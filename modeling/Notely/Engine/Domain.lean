import Notely.Lib.Strings

/-! # Meetings and what is derived from them

`domain/`: the meeting, its transcript (the source of truth), the structured representation the language
model fills in, and the durable status of a capture. -/

namespace Notely.Engine.Domain

open Notely.Lib.Strings

/-- An `f64` of seconds or of confidence: a number, or NaN. -/
inductive F64
  | nan
  | num (value : Rat)
  deriving DecidableEq

/-- `Participant`. -/
structure Participant where
  id : Text
  displayName : Option Text := none
  deriving DecidableEq

/-- `Evidence`. -/
structure Evidence where
  quote : Text := []
  speakerId : Option Text := none
  start : Option F64 := none
  «end» : Option F64 := none
  chunkId : Option Text := none
  deriving DecidableEq

/-- `Topic`. -/
structure Topic where
  title : Text
  summary : Option Text := none
  evidence : List Evidence := []
  confidence : Option F64 := none
  deriving DecidableEq

/-- `Decision`. -/
structure Decision where
  decision : Text
  context : Option Text := none
  evidence : List Evidence := []
  confidence : Option F64 := none
  deriving DecidableEq

/-- `ActionStatus`. -/
inductive ActionStatus
  | «open»
  | inProgress
  | done
  | cancelled
  deriving DecidableEq

/-- `ActionItem`. -/
structure ActionItem where
  description : Text
  owner : Option Text := none
  deadline : Option Text := none
  status : ActionStatus := .open
  evidence : List Evidence := []
  confidence : Option F64 := none
  deriving DecidableEq

/-- `OpenQuestion`. -/
structure OpenQuestion where
  question : Text
  context : Option Text := none
  evidence : List Evidence := []
  confidence : Option F64 := none
  deriving DecidableEq

/-- `Risk`. -/
structure Risk where
  description : Text
  severity : Option Text := none
  evidence : List Evidence := []
  confidence : Option F64 := none
  deriving DecidableEq

/-- `MeetingIr`. -/
structure MeetingIr where
  summary : Text := []
  participants : List Participant := []
  topics : List Topic := []
  decisions : List Decision := []
  actionItems : List ActionItem := []
  openQuestions : List OpenQuestion := []
  risks : List Risk := []
  deriving DecidableEq

/-- `MeetingId`. -/
abbrev MeetingId := Text

/-- A `DateTime<Utc>`, as the time since an epoch. -/
abbrev DateTime := ℕ

/-- `Meeting`. -/
structure Meeting where
  id : MeetingId
  title : Text
  createdAt : DateTime
  occurredAt : Option DateTime := none
  participants : List Participant := []
  durationSeconds : Option F64 := none
  deriving DecidableEq

/-- `Meeting::new`, of the id and the time it draws. -/
def Meeting.new (title : Text) (id : MeetingId) (now : DateTime) : Meeting where
  id := id
  title := title
  createdAt := now

/-- `TranscriptSegment`. -/
structure TranscriptSegment where
  speakerId : Option Text := none
  start : F64
  «end» : F64
  text : Text
  language : Option Text := none
  confidence : Option F64 := none
  deriving DecidableEq

/-- `Transcript`. -/
structure Transcript where
  segments : List TranscriptSegment := []
  deriving DecidableEq

/-! ### The status of a capture -/

/-- `ProcessingState`. -/
inductive ProcessingState
  | processing
  | ready
  | deferred
  | failed
  deriving DecidableEq

/-- `FailureKind`. -/
inductive FailureKind
  | temporary
  | permanent
  deriving DecidableEq

/-- `ProcessingStatus`. -/
structure ProcessingStatus where
  state : ProcessingState
  failureKind : Option FailureKind
  error : Option Text
  deriving DecidableEq

namespace ProcessingStatus

/-- `ProcessingStatus::processing`. -/
def processing : ProcessingStatus := ⟨.processing, none, none⟩

/-- `ProcessingStatus::ready`. -/
def ready : ProcessingStatus := ⟨.ready, none, none⟩

/-- `ProcessingStatus::deferred`. -/
def deferred (error : Text) : ProcessingStatus := ⟨.deferred, some .temporary, some error⟩

/-- `ProcessingStatus::failed`. -/
def failed (error : Text) : ProcessingStatus := ⟨.failed, some .permanent, some error⟩

end ProcessingStatus

end Notely.Engine.Domain
