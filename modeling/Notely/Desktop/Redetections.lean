import Notely.Desktop.MeetingPrompts
import Notely.Desktop.ProviderGate
import Notely.Lib.Buckets

/-! # A call that is detected again

`MeetingDetectedEvent` of `services/meetings/meeting_event.dart`. Where a call has no id, its `meetingKey` has the
bucket of ten minutes in which it starts, so that re-detections of one call collapse together. They do only within a
bucket: a call that is detected again on the other side of a mark is another meeting, and the user who dismissed it is
asked about it again.

* `meetingKey_eq_iff`: the keys of two detections that differ in their start at most.
* `asked_again`: a run in which a dismissed call is asked about under another key.
* `collapses_iff`: **re-detections collapse exactly when no mark lies between them.** -/

namespace Notely.Desktop.Redetections

open Notely.Lib.Strings Notely.Lib.Lts Notely.Lib.Buckets Notely.Desktop.Dart Notely.Desktop.MeetingSession
open Notely.Desktop.Capture (Recorder)
open Notely.Desktop.CaptureSafety (plain)
open Notely.Desktop.MeetingPrompts (not_after_dismissal)
open Notely.Desktop.ProviderGate (MeetingProvider)

/-! ### Events -/

/-- A `DateTime`, known by its microseconds. -/
structure DateTime where
  microsecondsSinceEpoch : ℤ
  deriving DecidableEq, Repr

def DateTime.millisecondsSinceEpoch (t : DateTime) : ℤ := t.microsecondsSinceEpoch.tdiv 1000

def DateTime.fromMillisecondsSinceEpoch (ms : ℤ) : DateTime := ⟨ms * 1000⟩

structure MeetingDetectedEvent where
  provider : MeetingProvider
  startedAt : DateTime
  title : Option Text := none
  participantHint : Option Text := none
  sourceApplication : Option Text := none
  meetingId : Option Text := none
  deriving DecidableEq

/-- `10 * 60 * 1000`. -/
def tenMinutes : ℤ := 10 * 60 * 1000

namespace MeetingDetectedEvent

variable (e : MeetingDetectedEvent)

/-- The start in milliseconds. -/
def startedAtMs : ℤ := e.startedAt.millisecondsSinceEpoch

/-- The key without an id of the meeting. -/
def bucketKey : Text :=
  let app := e.sourceApplication.getD e.provider.id
  let bucket := e.startedAtMs.tdiv tenMinutes
  e.provider.id ++ ':' :: app ++ ':' :: (toString bucket).toList

/-- `meetingKey`. -/
def meetingKey : Text :=
  match e.meetingId with
  | some meetingId => if meetingId ≠ [] then e.provider.id ++ ':' :: meetingId else e.bucketKey
  | none => e.bucketKey

/-- No id of the meeting is known, or an empty one. -/
def WithoutId : Prop := e.meetingId.getD [] = []

instance : Decidable e.WithoutId := inferInstanceAs (Decidable (_ = _))

end MeetingDetectedEvent

/-- `fromMap` of what a native detector sends. -/
def fromNative (provider : MeetingProvider) (startedAtMs : ℤ) (source : Text) : MeetingDetectedEvent where
  provider := provider
  startedAt := .fromMillisecondsSinceEpoch startedAtMs
  sourceApplication := some source

section Keys
variable {e e' : MeetingDetectedEvent}

theorem meetingKey_of_withoutId (h : e.WithoutId) : e.meetingKey = e.bucketKey := by
  unfold MeetingDetectedEvent.WithoutId at h
  unfold MeetingDetectedEvent.meetingKey
  cases hid : e.meetingId with
  | none => rfl
  | some id =>
    rw [hid, Option.getD_some] at h
    exact if_neg (not_not_intro h)

/-- The keys of what a native detector sends. -/
theorem meetingKey_fromNative (provider : MeetingProvider) (ms : ℤ) (source : Text) :
    (fromNative provider ms source).meetingKey = ProviderGate.meetingKey provider ms source := by
  have hid : (fromNative provider ms source).WithoutId := rfl
  have hms : (fromNative provider ms source).startedAtMs = ms := Int.mul_tdiv_cancel ms (by decide)
  rw [meetingKey_of_withoutId hid, MeetingDetectedEvent.bucketKey, hms]
  rfl

/-- **Two detections of the same provider and application, without an id, that start less than ten minutes apart.** -/
structure Redetection (e e' : MeetingDetectedEvent) : Prop where
  provider : e.provider = e'.provider
  sourceApplication : e.sourceApplication = e'.sourceApplication
  withoutId : e.WithoutId
  withoutId' : e'.WithoutId
  close : (e.startedAt.microsecondsSinceEpoch - e'.startedAt.microsecondsSinceEpoch).natAbs < 600000000

instance (e e' : MeetingDetectedEvent) : Decidable (Redetection e e') :=
  decidable_of_iff (e.provider = e'.provider ∧ e.sourceApplication = e'.sourceApplication ∧ e.WithoutId ∧
      e'.WithoutId ∧ (e.startedAt.microsecondsSinceEpoch - e'.startedAt.microsecondsSinceEpoch).natAbs < 600000000)
    ⟨fun ⟨h1, h2, h3, h4, h5⟩ => ⟨h1, h2, h3, h4, h5⟩, fun ⟨h1, h2, h3, h4, h5⟩ => ⟨h1, h2, h3, h4, h5⟩⟩

/-- No mark of ten minutes lies between the starts: those that one has reached, the other has. -/
def SameMarks (e e' : MeetingDetectedEvent) : Prop :=
  ∀ k : ℤ, Reached (k * tenMinutes) e.startedAtMs ↔ Reached (k * tenMinutes) e'.startedAtMs

/-- The keys are the same where no mark lies between. -/
theorem meetingKey_eq_iff (h : Redetection e e') : e.meetingKey = e'.meetingKey ↔ SameMarks e e' := by
  rw [SameMarks, ← tdiv_eq_tdiv_iff (by decide), meetingKey_of_withoutId h.withoutId,
    meetingKey_of_withoutId h.withoutId', MeetingDetectedEvent.bucketKey, MeetingDetectedEvent.bucketKey, h.provider,
    h.sourceApplication]
  constructor
  · intro heq
    exact toString_int_injective (List.cons.inj (List.append_cancel_left heq)).2
  · intro heq
    rw [heq]

end Keys

/-! ### The manager -/

section Prompts
variable {R : Recorder} {m : Manager R}

/-- **Once the user has dismissed the one, there is no prompt for the other**, in whatever run of the manager. -/
def NeverAsked (R : Recorder) (e e' : MeetingDetectedEvent) : Prop :=
  ∀ companionOverlay settings (m : Manager R),
    Reach Manager.step (fun _ _ => True) (started companionOverlay settings) m →
    ∀ l1 l2, m.history = l1 ++ .dismissed e.meetingKey :: l2 → .prompted e'.meetingKey ∉ l2

/-- A detection that is not ignored is a prompt, where the user wants to be asked. -/
theorem onDetected_prompts {key : Text} (hnew : m.IsNew key) (hauto : m.settings.autoStartTracking = false)
    (hnotify : m.settings.notifyOnDetect = true) :
    m.onDetected key =
      { m with
        seen := insert key m.seen
        awaiting := some key
        state := .awaitingDecision
        history := m.history ++ [Note.prompted key] }.suspend .prompting := by
  unfold Manager.onDetected
  rw [if_pos hnew]
  simp only [hauto, hnotify, Bool.false_eq_true, if_false, if_true]

/-- A dismissal. -/
theorem onNotificationAction_dismiss {key : Text} (h : m.awaiting = some key) :
    m.onNotificationAction key .dismiss =
      { m with
        dismissed := insert key m.dismissed
        awaiting := none
        state := .notRunning
        history := m.history ++ [Note.dismissed key] }.suspend .clearing := by
  unfold Manager.onNotificationAction
  exact if_pos h

/-- A call is asked about, dismissed, and detected again. -/
def interrupted (e e' : MeetingDetectedEvent) : List Action :=
  [.detected e.meetingKey, .acted e.meetingKey .dismiss, .detected e'.meetingKey]

/-- **Under another key the user is asked again.** -/
theorem asked_again {e e' : MeetingDetectedEvent} (hkey : e.meetingKey ≠ e'.meetingKey) :
    ∃ m : Manager R, run Manager.step (started true {}) (interrupted e e') = some m ∧
      m.history = [.prompted e.meetingKey, .dismissed e.meetingKey, .prompted e'.meetingKey] := by
  have hnew : (started true {} : Manager R).IsNew e.meetingKey := by simp [Manager.IsNew, started]
  refine ⟨_, rfl, ?_⟩
  rw [onDetected_prompts hnew rfl rfl, onNotificationAction_dismiss rfl, onDetected_prompts ?_ rfl rfl]
  · rfl
  · simp [Manager.IsNew, Manager.suspend, started, hkey.symm]

/-- The user is never asked again exactly where the keys are the same. -/
theorem neverAsked_iff {e e' : MeetingDetectedEvent} : NeverAsked R e e' ↔ e.meetingKey = e'.meetingKey := by
  constructor
  · intro h
    by_contra hkey
    obtain ⟨m, hrun, hhistory⟩ := asked_again (R := R) hkey
    have hreach := Reach.of_run (along_of_forall (fun _ _ _ => trivial) _) hrun
    exact h true {} m hreach [.prompted e.meetingKey] [.prompted e'.meetingKey] hhistory (List.mem_singleton_self _)
  · intro hkey companionOverlay settings m hreach l1 l2 hhistory
    rw [← hkey]
    exact not_after_dismissal hreach e.meetingKey l1 l2 hhistory

/-- **Re-detections collapse**: they have one key, and once the user has dismissed the call nothing asks again. -/
def Collapse (R : Recorder) (e e' : MeetingDetectedEvent) : Prop :=
  e.meetingKey = e'.meetingKey ∧ NeverAsked R e e'

/-- **Re-detections collapse exactly when no mark lies between them**, and so does each half of it hold. -/
theorem collapses_iff (R : Recorder) {e e' : MeetingDetectedEvent} (h : Redetection e e') :
    (Collapse R e e' ↔ SameMarks e e') ∧ (e.meetingKey = e'.meetingKey ↔ SameMarks e e') ∧
      (NeverAsked R e e' ↔ SameMarks e e') := by
  have hkey := meetingKey_eq_iff h
  refine ⟨?_, hkey, neverAsked_iff.trans hkey⟩
  rw [Collapse, neverAsked_iff, and_self, hkey]

/-- A call in Zoom that is detected at a time. -/
def zoomAt (ms : ℤ) : MeetingDetectedEvent := fromNative .zoom ms "us.zoom.xos".toList

/-- Two detections nine minutes apart, within a bucket. -/
theorem collapses_iff_within : Collapse plain (zoomAt 1760000400000) (zoomAt 1760000940000) := by
  refine (collapses_iff plain (by decide)).1.mpr fun k => ?_
  have hfirst : (zoomAt 1760000400000).startedAtMs = 1760000400000 := by decide
  have hsecond : (zoomAt 1760000940000).startedAtMs = 1760000940000 := by decide
  rw [hfirst, hsecond, Reached, Reached, tenMinutes]
  omega

/-- **A second across a mark**, the same call has another key, and the user who dismissed it is asked again. -/
theorem not_collapse :
    (¬ ∀ e e' : MeetingDetectedEvent, Redetection e e' → e.meetingKey = e'.meetingKey) ∧
    ¬ ∀ e e' : MeetingDetectedEvent, Redetection e e' → NeverAsked plain e e' := by
  have hredetection : Redetection (zoomAt 1760000399000) (zoomAt 1760000400000) := by decide
  have hkey : (zoomAt 1760000399000).meetingKey ≠ (zoomAt 1760000400000).meetingKey := by decide
  exact ⟨fun h => hkey (h _ _ hredetection), fun h => hkey (neverAsked_iff.mp (h _ _ hredetection))⟩

end Prompts

end Notely.Desktop.Redetections
