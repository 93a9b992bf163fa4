import Notely.Desktop.Listening
import Notely.Lib.Handles

/-! # The microphone and the listening session

`ListeningController` of `features/listening/listening_state.dart` with the devices it drives:
`RecordMeetingAudioService` of `services/audio/meeting_audio_service.dart` and `MockTranscriptService` of
`services/transcript/transcript_service.dart`. Every operation flips the state first and reaches the devices
later, at its awaits: what is suspended is listed by where it stands, and goes on in any order. What a summary says
and what a session holds is left to `Desktop/Listening`.

The recorder is the `AudioRecorder` of `package:record`, of which only what its documentation says is used
(`Recorder`). Its calls take effect in the order in which they are made.

`told_of_step`: a step that changes the state notifies the listeners. -/

namespace Notely.Desktop.Capture

open Notely.Lib.Handles
open Notely.Desktop.Listening (ListeningState)

/-! ### Devices -/

/-- `AudioRecorder`: a recording that is paused is still a recording, until it is stopped. -/
structure Recorder where
  State : Type
  initial : State
  isRecording : State → Bool
  isPaused : State → Bool
  startStream : State → State
  pause : State → State
  resume : State → State
  stop : State → State
  isRecording_initial : isRecording initial = false
  isRecording_startStream : ∀ s, isRecording (startStream s) = true
  isPaused_startStream : ∀ s, isPaused (startStream s) = false
  isRecording_pause : ∀ s, isRecording (pause s) = isRecording s
  isPaused_pause : ∀ s, isRecording s = true → isPaused (pause s) = true
  isRecording_resume : ∀ s, isRecording (resume s) = isRecording s
  isPaused_resume : ∀ s, isPaused (resume s) = false
  isRecording_stop : ∀ s, isRecording (stop s) = false
  isRecording_of_isPaused : ∀ s, isPaused s = true → isRecording s = true

/-- `AudioSourceStatus`. -/
inductive AudioSourceStatus
  | available
  | permissionRequired
  | unsupported
  | unavailable
  deriving DecidableEq

/-- The timer of `MockTranscriptService`, and its `_paused`. -/
structure Source where
  running : Bool := false
  paused : Bool := false
  deriving DecidableEq

/-! ### Suspended operations -/

/-- Where a `start` stands. -/
inductive Starting
  /-- `await requestPermissions()`, in `start`. -/
  | probing
  /-- `await requestPermissions()`, in `startMicrophone`. -/
  | asking
  /-- `await _recorder.startStream(…)`, which gives a stream or throws. -/
  | opening (opens : Bool)
  /-- `await startSystemAudio()`. -/
  | opened
  deriving DecidableEq

/-- Where a `pause` stands: it waits for the answer of `isRecording`, or for the recorder to pause. -/
inductive Pausing
  | asked (recording : Bool)
  | sent
  deriving DecidableEq

/-- Where a `resume` stands: it waits for the answer of `isPaused`, or for the recorder to resume. -/
inductive Resuming
  | asked (paused : Bool)
  | sent
  deriving DecidableEq

/-- Where a `stop` stands. -/
inductive Stopping
  /-- `await _micSub?.cancel()`. -/
  | cancelling
  /-- `await _recorder.isRecording()`. -/
  | askedRecording (recording : Bool)
  /-- `await _recorder.isPaused()`. -/
  | askedPaused (paused : Bool)
  /-- `await _recorder.stop()`. -/
  | halting
  /-- `await _sub?.cancel()`. -/
  | unsubscribing
  deriving DecidableEq

/-- `ListeningController`, the devices, and what is suspended. `notified` counts `notifyListeners`. -/
structure Controller (R : Recorder) where
  state : ListeningState := .idle
  session : Bool := false
  microphone : AudioSourceStatus := .permissionRequired
  recorder : R.State := R.initial
  micSub : Slot := {}
  sub : Slot := {}
  transcript : Source := {}
  notified : ℕ := 0
  starting : List Starting := []
  pausing : List Pausing := []
  resuming : List Resuming := []
  stopping : List Stopping := []
  summarising : ℕ := 0

/-- What a permission request answers, and whether a stream that is then asked for opens. -/
structure Reply where
  microphone : AudioSourceStatus := .available
  opens : Bool := true
  deriving DecidableEq

/-- What the controller is asked to do, and what a suspended operation was waiting for. -/
inductive Action
  | start
  | pause
  | resume
  | stop
  | summarise (hasOpenNote : Bool)
  | close
  | starting (t : Starting) (reply : Reply)
  | pausing (t : Pausing)
  | resuming (t : Resuming)
  | stopping (t : Stopping)
  /-- A `summarise` ends: with the session, or with an error. -/
  | summarised (ends : Bool)
  /-- The script of the transcript is at its end. -/
  | exhausted
  /-- Another notification: a segment is heard, an error or a notice is cleared. -/
  | touched
  deriving DecidableEq

namespace Controller

variable {R : Recorder} (c : Controller R)

/-- `notifyListeners`. -/
def notify : Controller R := { c with notified := c.notified + 1 }

/-- `start`, up to its first suspension. -/
def start : Controller R :=
  if c.state = .idle then
    { c with
      state := .listening
      session := true
      sub := c.sub.take
      starting := .probing :: c.starting }.notify
  else c

/-- `pause`, up to its first suspension. -/
def pause : Controller R :=
  if c.state = .listening then
    { c with state := .paused, pausing := .asked (R.isRecording c.recorder) :: c.pausing }.notify
  else c

/-- `resume`, up to its first suspension. -/
def resume : Controller R :=
  if c.state = .paused then
    { c with state := .listening, resuming := .asked (R.isPaused c.recorder) :: c.resuming }.notify
  else c

/-- `stop`, up to its first suspension. -/
def stop : Controller R :=
  if c.state = .idle ∨ c.state = .reviewing then c
  else
    { c with
      state := .reviewing
      transcript := { c.transcript with running := false }
      micSub := c.micSub.cancel
      stopping := .cancelling :: c.stopping }.notify

/-- `summarise`, up to its first suspension. -/
def summarise (hasOpenNote : Bool) : Controller R :=
  if c.state = .reviewing ∧ c.session = true ∧ hasOpenNote = true then
    { c with summarising := c.summarising + 1 }.notify
  else c

/-- `_endSession`. -/
def endSession : Controller R := { c with state := .idle, session := false }.notify

/-- `close`. -/
def close : Controller R := if c.state = .idle then c else c.endSession

/-- A permission request is answered; the first one that does not grant the microphone is made again. -/
def answered (again : Bool) (reply : Reply) : Controller R :=
  let c := { c with microphone := reply.microphone }
  if reply.microphone = .available then
    { c with
      recorder := if reply.opens then R.startStream c.recorder else c.recorder
      starting := .opening reply.opens :: c.starting }
  else if again then { c with starting := .asking :: c.starting }
  else { c with starting := .opened :: c.starting }

/-- A `start` goes on. -/
def advanceStart (t : Starting) (reply : Reply) : Controller R :=
  let c := { c with starting := c.starting.erase t }
  match t with
  | .probing => c.answered true reply
  | .asking => c.answered false reply
  | .opening true => { c with micSub := c.micSub.take, starting := .opened :: c.starting }
  | .opening false => c
  | .opened => { c with transcript := { running := true, paused := false } }.notify

/-- A `pause` goes on. -/
def advancePause (t : Pausing) : Controller R :=
  let c := { c with pausing := c.pausing.erase t }
  match t with
  | .asked recording =>
    { c with
      recorder := if recording then R.pause c.recorder else c.recorder
      pausing := .sent :: c.pausing }
  | .sent => { c with transcript := { c.transcript with paused := true } }

/-- A `resume` goes on. -/
def advanceResume (t : Resuming) : Controller R :=
  let c := { c with resuming := c.resuming.erase t }
  match t with
  | .asked paused =>
    { c with
      recorder := if paused then R.resume c.recorder else c.recorder
      resuming := .sent :: c.resuming }
  | .sent => { c with transcript := { c.transcript with paused := false } }

/-- `await _sub?.cancel()`. -/
def unsubscribe : Controller R := { c with sub := c.sub.cancel, stopping := .unsubscribing :: c.stopping }

/-- `await _recorder.stop()`. -/
def halt : Controller R := { c with recorder := R.stop c.recorder, stopping := .halting :: c.stopping }

/-- A `stop` goes on. -/
def advanceStop (t : Stopping) : Controller R :=
  let c := { c with stopping := c.stopping.erase t }
  match t with
  | .cancelling =>
    { c with micSub := c.micSub.drop, stopping := .askedRecording (R.isRecording c.recorder) :: c.stopping }
  | .askedRecording true => c.halt
  | .askedRecording false => { c with stopping := .askedPaused (R.isPaused c.recorder) :: c.stopping }
  | .askedPaused true => c.halt
  | .askedPaused false => c.unsubscribe
  | .halting => c.unsubscribe
  | .unsubscribing => { c with sub := c.sub.drop }

/-- A `summarise` ends. -/
def advanceSummarise (ends : Bool) : Controller R :=
  let c := { c with summarising := c.summarising - 1 }
  if ends then c.endSession else c.notify

def step : Action → Option (Controller R)
  | .start => some c.start
  | .pause => some c.pause
  | .resume => some c.resume
  | .stop => some c.stop
  | .summarise hasOpenNote => some (c.summarise hasOpenNote)
  | .close => some c.close
  | .starting t reply => if t ∈ c.starting then some (c.advanceStart t reply) else none
  | .pausing t => if t ∈ c.pausing then some (c.advancePause t) else none
  | .resuming t => if t ∈ c.resuming then some (c.advanceResume t) else none
  | .stopping t => if t ∈ c.stopping then some (c.advanceStop t) else none
  | .summarised ends => if 0 < c.summarising then some (c.advanceSummarise ends) else none
  | .exhausted => some { c with transcript := { c.transcript with running := false } }
  | .touched => some c.notify

/-! ### What goes on keeps the state -/

section State
variable {c}

theorem state_advanceStart (t : Starting) (reply : Reply) : (c.advanceStart t reply).state = c.state := by
  have hanswered : ∀ (again : Bool) (d : Controller R), (d.answered again reply).state = d.state := by
    intro again d
    unfold answered
    split_ifs <;> rfl
  unfold advanceStart
  rcases t with _ | _ | (_ | _) | _
  · exact hanswered _ _
  · exact hanswered _ _
  all_goals rfl

theorem state_advanceStop (t : Stopping) : (c.advanceStop t).state = c.state := by
  unfold advanceStop
  rcases t with _ | (_ | _) | (_ | _) | _ | _ <;> rfl

end State

/-! ### Who is told -/

section Notified
variable {c} {c' : Controller R}

/-- `c'` is in the state `c` is in, or has notified. -/
def Told (c c' : Controller R) : Prop := c'.state = c.state ∨ c'.notified = c.notified + 1

/-- An operation that is guarded. -/
theorem told_ite {p : Prop} [Decidable p] {d d' : Controller R} (h : Told c d) (h' : Told c d') :
    Told c (if p then d else d') := by
  split_ifs
  · exact h
  · exact h'

theorem told_advanceSummarise {ends : Bool} : Told c (c.advanceSummarise ends) := by
  unfold advanceSummarise
  cases ends with
  | true => exact Or.inr rfl
  | false => exact Or.inr rfl

/-- **A step that changes the state notifies.** -/
theorem told_of_step {a : Action} (hs : c.step a = some c') : Told c c' := by
  cases a with
  | start => exact Option.some.inj hs ▸ told_ite (Or.inr rfl) (Or.inl rfl)
  | pause => exact Option.some.inj hs ▸ told_ite (Or.inr rfl) (Or.inl rfl)
  | resume => exact Option.some.inj hs ▸ told_ite (Or.inr rfl) (Or.inl rfl)
  | stop => exact Option.some.inj hs ▸ told_ite (Or.inl rfl) (Or.inr rfl)
  | summarise hasOpenNote => exact Option.some.inj hs ▸ told_ite (Or.inr rfl) (Or.inl rfl)
  | close => exact Option.some.inj hs ▸ told_ite (Or.inl rfl) (Or.inr rfl)
  | starting t reply =>
    obtain ⟨-, rfl⟩ := Option.ite_some_none_eq_some.mp hs
    exact Or.inl (state_advanceStart t reply)
  | pausing t =>
    obtain ⟨-, rfl⟩ := Option.ite_some_none_eq_some.mp hs
    cases t <;> exact Or.inl rfl
  | resuming t =>
    obtain ⟨-, rfl⟩ := Option.ite_some_none_eq_some.mp hs
    cases t <;> exact Or.inl rfl
  | stopping t =>
    obtain ⟨-, rfl⟩ := Option.ite_some_none_eq_some.mp hs
    exact Or.inl (state_advanceStop t)
  | summarised ends =>
    obtain ⟨-, rfl⟩ := Option.ite_some_none_eq_some.mp hs
    exact told_advanceSummarise
  | exhausted => exact Or.inl (Option.some.inj hs ▸ rfl)
  | touched => exact Or.inl (Option.some.inj hs ▸ rfl)

end Notified

end Controller

end Notely.Desktop.Capture
