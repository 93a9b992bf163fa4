import Notely.Engine.Orchestrator

/-! # What answers a run

The store (`storage/database.rs`), the job registry and the event stream around the runs of the
orchestrator. An operation is answered from the state and from what is decided elsewhere (`Outcome`):
whether a call of the store fails, which id a new meeting draws, what the media tools, the recognizer and
the analyzer say. A call of the store that fails changes nothing. -/

namespace Notely.Engine.Answers

open Notely.Lib Notely.Engine.Domain Notely.Engine.Jobs Notely.Engine.Orchestrator
open Notely.Engine.Analysis
open Notely.Lib.Strings (Text)

/-- The tables of the store: the meetings, and the artifacts of each kind. -/
structure Store where
  meetings : List (MeetingId × Meeting) := []
  transcripts : List (MeetingId × Transcript) := []
  irs : List (MeetingId × MeetingIr) := []
  moms : List (MeetingId × Text) := []
  statuses : List (MeetingId × ProcessingStatus) := []
  deriving DecidableEq

/-- The state the runs share. -/
structure World where
  store : Store := {}
  jobs : JobRegistry := {}
  events : List Event := []
  deriving DecidableEq

/-- What is decided elsewhere for an operation. -/
abbrev Outcome {α : Type} : Op α → Type
  | .updateJob _ _ => Bool
  | .getJob _ | .isCancelled _ | .send _ => Unit
  | .newMeeting => MeetingId × DateTime
  | .saveMeeting _ | .getMeeting _ | .saveTranscript _ _ | .getTranscript _ | .saveMeetingIr _ _
  | .saveMom _ _ | .saveProcessingStatus _ _ => Option StorageError
  | .extractAudio _ _ _ => Except MediaError PreparedAudio
  | .transcribe _ => Except AsrError Transcript
  | .extractChunk _ _ => Except AiError ChunkFindings
  | .synthesize _ _ _ => Except AiError MeetingIr

/-- A write of the store, which fails or not. -/
def World.write (w : World) (f : Store → Store) : Option StorageError → Except StorageError Unit × World
  | none => (.ok (), { w with store := f w.store })
  | some e => (.error e, w)

/-- A read of the store, which fails or not. -/
def World.read {α : Type} (w : World) (f : Store → α) : Option StorageError → Except StorageError α × World
  | none => (.ok (f w.store), w)
  | some e => (.error e, w)

/-- The reply to an operation, and the state after it. -/
def answer (w : World) {α : Type} : (o : Op α) → Outcome o → α × World
  | .updateJob jobId f, written => ((), { w with jobs := w.jobs.update jobId f written })
  | .getJob jobId, _ => (w.jobs.get jobId, w)
  | .isCancelled jobId, _ => (w.jobs.isCancelled jobId, w)
  | .newMeeting, drawn => (drawn, w)
  | .saveMeeting m, fails => w.write (fun s => { s with meetings := Table.put m.id m s.meetings }) fails
  | .getMeeting id, fails => w.read (fun s => Table.get id s.meetings) fails
  | .saveTranscript id t, fails =>
    w.write (fun s => { s with transcripts := Table.put id t s.transcripts }) fails
  | .getTranscript id, fails => w.read (fun s => Table.get id s.transcripts) fails
  | .saveMeetingIr id ir, fails => w.write (fun s => { s with irs := Table.put id ir s.irs }) fails
  | .saveMom id mom, fails => w.write (fun s => { s with moms := Table.put id mom s.moms }) fails
  | .saveProcessingStatus id st, fails =>
    w.write (fun s => { s with statuses := Table.put id st s.statuses }) fails
  | .send e, _ => ((), { w with events := w.events ++ [e] })
  | .extractAudio _ _ _, result => (result, w)
  | .transcribe _, result => (result, w)
  | .extractChunk _ _, result => (result, w)
  | .synthesize _ _ _, result => (result, w)

/-! ### What an operation leaves as it is -/

section Frame
variable {w : World} {f : Store → Store} {fails : Option StorageError}

@[simp] theorem write_jobs : (w.write f fails).2.jobs = w.jobs := by cases fails <;> rfl

@[simp] theorem write_events : (w.write f fails).2.events = w.events := by cases fails <;> rfl

@[simp] theorem write_eq_ok {u : Unit} : (w.write f fails).1 = .ok u ↔ fails = none := by
  cases fails <;> simp [World.write]

@[simp] theorem write_eq_error {e : StorageError} : (w.write f fails).1 = .error e ↔ fails = some e := by
  cases fails <;> simp [World.write]

theorem write_world_of_ok {u : Unit} (h : (w.write f fails).1 = .ok u) :
    (w.write f fails).2 = { w with store := f w.store } := by
  rw [write_eq_ok.mp h]
  rfl

theorem write_world_of_error {e : StorageError} (h : (w.write f fails).1 = .error e) : (w.write f fails).2 = w := by
  cases fails with
  | none => simp [World.write] at h
  | some e => rfl

@[simp] theorem read_eq_ok {α : Type} {f : Store → α} {a : α} :
    (w.read f fails).1 = .ok a ↔ fails = none ∧ f w.store = a := by
  cases fails <;> simp [World.read]

@[simp] theorem read_world {α : Type} {f : Store → α} : (w.read f fails).2 = w := by cases fails <;> rfl

/-- No operation of a run raises a flag. -/
@[simp] theorem isCancelled_answer {id : JobId} {α : Type} {o : Op α} {c : Outcome o} :
    (answer w o c).2.jobs.isCancelled id = w.jobs.isCancelled id := by
  cases o with
  | saveMeeting _ | saveTranscript _ _ | saveMeetingIr _ _ | saveMom _ _ | saveProcessingStatus _ _ =>
    exact congrArg (JobRegistry.isCancelled · id) write_jobs
  | getMeeting _ | getTranscript _ => exact congrArg (fun w => w.jobs.isCancelled id) read_world
  | updateJob jobId f => exact isCancelled_update
  | _ => rfl

/-- What holds of the store, and after the write, holds whether the write fails or not. -/
theorem write_store_inv {P : Store → Prop} (h : P w.store) (hf : P (f w.store)) : P (w.write f fails).2.store := by
  cases fails with
  | none => exact hf
  | some e => exact h

/-- **A stored transcript stays stored.** -/
theorem transcript_isSome_answer {m : MeetingId} {α : Type} (o : Op α) (c : Outcome o)
    (h : (Table.get m w.store.transcripts).isSome) :
    (Table.get m (answer w o c).2.store.transcripts).isSome := by
  cases o with
  | saveTranscript id t =>
    cases c with
    | some e => exact h
    | none =>
      by_cases hid : m = id
      · simp [answer, World.write, hid]
      · simpa [answer, World.write, hid] using h
  | saveMeeting _ | saveMeetingIr _ _ | saveMom _ _ | saveProcessingStatus _ _ => cases c <;> exact h
  | getMeeting _ | getTranscript _ =>
    simp only [answer, read_world]
    exact h
  | _ => exact h

end Frame

end Notely.Engine.Answers
