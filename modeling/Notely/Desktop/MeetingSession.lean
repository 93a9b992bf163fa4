import Notely.Desktop.Capture
import Mathlib.Data.Finset.Basic

/-! # Detected meetings

`MeetingSessionManager` of `features/meetings/meeting_session_manager.dart` over the listening controller of
`Desktop/Capture`, once it is started: detections, endings, notification actions, companion commands and changes of
the settings come in any order, every handler is suspended at its awaits and goes on in any order, and what the
controller notifies is handled in place. A meeting is known by its key; what a prompt or a snapshot says is left
out.

`Moves` lists what a step can do, and `moves_of_step` that it does nothing else. -/

namespace Notely.Desktop.MeetingSession

open Notely.Lib.Strings Notely.Lib.Handles Notely.Desktop.Capture
open Notely.Desktop.Listening (ListeningState)

/-- `MeetingRuntimeState`. -/
inductive MeetingRuntimeState
  | notRunning
  | awaitingDecision
  | tracking
  | finalizing
  deriving DecidableEq

/-- `MeetingDetectionSettings`. -/
structure MeetingDetectionSettings where
  notifyOnDetect : Bool := true
  autoStartTracking : Bool := false
  showCompanion : Bool := true
  deriving DecidableEq

/-- `NotificationActionType`. -/
inductive NotificationActionType
  | start
  | dismiss
  deriving DecidableEq

/-- `CompanionCommand`. -/
inductive CompanionCommand
  | pause
  | resume
  | stop
  | openInNotely
  deriving DecidableEq

/-- Where a suspended handler stands. -/
inductive Handler
  /-- `_onDetected`: `await _notifications.showMeetingPrompt(…)`. -/
  | prompting
  /-- `_onNotificationAction`: `await _notifications.cancel(…)`, of a late action or after a dismissal. -/
  | clearing
  /-- `_startTracking`: `await _notifications.cancel(…)`. -/
  | cancelling
  /-- `_startTracking`: `await _listening.start(…)`. -/
  | starting
  /-- `_startTracking`: `await _companion.show()`. -/
  | showing
  /-- `_startTracking`: `await _pushSnapshot()`. -/
  | pushing
  /-- `_finalize`: `await _listening.stop()`. -/
  | stopping
  /-- `_finalize`: `await _companion.hide()`. -/
  | hidingCompanion
  /-- `_onCompanionCommand`: `await _listening.pause()` or `resume()`. -/
  | relaying
  /-- `updateSettings`. -/
  | updating
  deriving DecidableEq

/-- What is recorded of a run: the prompts that are shown, the meetings whose `_finalize` begins, and the dismissals of
the user. -/
inductive Note
  | prompted (meetingKey : Text)
  | finalized (meetingKey : Text)
  | dismissed (meetingKey : Text)
  deriving DecidableEq

/-- `MeetingSessionManager`, with the controller, the handlers that are suspended, and the record of the run, which
nothing reads. -/
structure Manager (R : Recorder) where
  listening : Controller R := {}
  companionOverlay : Bool := true
  settings : MeetingDetectionSettings := {}
  state : MeetingRuntimeState := .notRunning
  awaiting : Option Text := none
  active : Option Text := none
  seen : Finset Text := ∅
  dismissed : Finset Text := ∅
  companionTick : Slot := {}
  handlers : List Handler := []
  history : List Note := []

/-- What reaches the manager. -/
inductive Action
  | detected (meetingKey : Text)
  | acted (meetingKey : Text) (type : NotificationActionType)
  | ended (meetingKey : Text)
  | commanded (command : CompanionCommand)
  | updated (settings : MeetingDetectionSettings)
  /-- A suspended handler goes on. -/
  | resumed (h : Handler)
  /-- The controller is used by another, or goes on by itself. -/
  | listening (a : Capture.Action)
  deriving DecidableEq

/-- A session listens or pauses. -/
def Active (s : ListeningState) : Prop := s = .listening ∨ s = .paused

instance (s : ListeningState) : Decidable (Active s) := inferInstanceAs (Decidable (_ ∨ _))

namespace Manager

variable {R : Recorder} (m : Manager R)

/-- A handler is suspended. -/
def suspend (h : Handler) : Manager R := { m with handlers := h :: m.handlers }

/-- `_finalize`, up to its first suspension. What `stop` notifies finds the state finalizing, and changes nothing. -/
def finalize : Manager R :=
  if m.state = .tracking then
    { m with
      state := .finalizing
      companionTick := m.companionTick.cancel.drop
      listening := m.listening.stop
      history := m.history ++ (m.active.map Note.finalized).toList }.suspend .stopping
  else m

/-- `_onListeningChanged`. -/
def onListeningChanged : Manager R :=
  if m.state = .tracking ∧ ¬ Active m.listening.state then m.finalize else m

/-- The controller has become `c`; the manager is told if it notified. -/
def watch (c : Controller R) : Manager R :=
  if c.notified = m.listening.notified then { m with listening := c }
  else { m with listening := c }.onListeningChanged

/-- `_startTracking`, up to its first suspension. -/
def startTracking (meetingKey : Text) : Manager R :=
  { m with awaiting := none, active := some meetingKey, state := .tracking }.suspend .cancelling

/-- A detection that is not ignored. -/
def IsNew (meetingKey : Text) : Prop :=
  meetingKey ∉ m.dismissed ∧ ¬ (m.active = some meetingKey ∨ m.awaiting = some meetingKey) ∧
    meetingKey ∉ m.seen ∧ m.state ≠ .tracking

instance (meetingKey : Text) : Decidable (m.IsNew meetingKey) := inferInstanceAs (Decidable (_ ∧ _))

/-- `_onDetected`, up to its first suspension. -/
def onDetected (meetingKey : Text) : Manager R :=
  if m.IsNew meetingKey then
    let m := { m with seen := insert meetingKey m.seen }
    if m.settings.autoStartTracking then m.startTracking meetingKey
    else if m.settings.notifyOnDetect then
      { m with
        awaiting := some meetingKey
        state := .awaitingDecision
        history := m.history ++ [Note.prompted meetingKey] }.suspend .prompting
    else m
  else m

/-- `_onNotificationAction`, up to its first suspension. -/
def onNotificationAction (meetingKey : Text) (type : NotificationActionType) : Manager R :=
  if m.awaiting = some meetingKey then
    match type with
    | .start => m.startTracking meetingKey
    | .dismiss =>
      { m with
        dismissed := insert meetingKey m.dismissed
        awaiting := none
        state := .notRunning
        history := m.history ++ [Note.dismissed meetingKey] }.suspend .clearing
  else m.suspend .clearing

/-- `_onEnded`: an empty key ends the active meeting, whichever it is. -/
def onEnded (meetingKey : Text) : Manager R :=
  match m.active with
  | none => m
  | some active => if meetingKey ≠ [] ∧ meetingKey ≠ active then m else m.finalize

/-- `_onCompanionCommand`. -/
def onCompanionCommand : CompanionCommand → Manager R
  | .pause => (m.watch m.listening.pause).suspend .relaying
  | .resume => (m.watch m.listening.resume).suspend .relaying
  | .stop => m.finalize
  | .openInNotely => m

/-- The end of `_finalize`: what is remembered of the active meeting is forgotten. -/
def finished : Manager R :=
  { m with
    seen := m.active.elim m.seen m.seen.erase
    dismissed := m.active.elim m.dismissed m.dismissed.erase
    active := none
    state := .notRunning }

/-- A handler goes on. -/
def resume : Handler → Manager R
  | .cancelling => (m.watch m.listening.start).suspend .starting
  | .starting => if m.settings.showCompanion ∧ m.companionOverlay then m.suspend .showing else m
  | .showing => m.suspend .pushing
  | .pushing => { m with companionTick := m.companionTick.take }
  | .stopping => m.suspend .hidingCompanion
  | .hidingCompanion => m.finished
  | .prompting | .clearing | .relaying | .updating => m

def step : Action → Option (Manager R)
  | .detected meetingKey => some (m.onDetected meetingKey)
  | .acted meetingKey type => some (m.onNotificationAction meetingKey type)
  | .ended meetingKey => some (m.onEnded meetingKey)
  | .commanded command => some (m.onCompanionCommand command)
  | .updated settings => some ({ m with settings := settings }.suspend .updating)
  | .resumed h => if h ∈ m.handlers then some ({ m with handlers := m.handlers.erase h }.resume h) else none
  | .listening a => (m.listening.step a).map m.watch

end Manager

variable {R : Recorder}

/-- The manager once it is started. -/
def started (companionOverlay : Bool) (settings : MeetingDetectionSettings) : Manager R :=
  { companionOverlay := companionOverlay, settings := settings }

/-! ### What a step can do -/

/-- A `_finalize` is suspended. -/
def Finalizing (hs : List Handler) : Prop := .stopping ∈ hs ∨ .hidingCompanion ∈ hs

instance (hs : List Handler) : Decidable (Finalizing hs) := inferInstanceAs (Decidable (_ ∨ _))

/-- What a step does to the manager. -/
inductive Moves (m : Manager R) : Action → Manager R → Prop
  /-- The controller, the settings or a handler moves on. -/
  | keeps {a : Action} {c : Controller R} {settings : MeetingDetectionSettings} {hs : List Handler}
      (hactive : Active m.listening.state → Active c.state)
      (hfinal : Finalizing hs ↔ Finalizing m.handlers) (hcancel : .cancelling ∈ m.handlers → .cancelling ∈ hs) :
      Moves m a { m with listening := c, settings := settings, handlers := hs }
  /-- The controller moves on, and is not tracked. -/
  | leaves {a : Action} {c : Controller R} {hs : List Handler} (hstate : m.state ≠ .tracking)
      (hfinal : Finalizing hs ↔ Finalizing m.handlers) : Moves m a { m with listening := c, handlers := hs }
  /-- `_startTracking` asks the controller to start. -/
  | starts {hs : List Handler} (hfinal : Finalizing hs ↔ Finalizing m.handlers) :
      Moves m (.resumed .cancelling) { m with listening := m.listening.start, handlers := hs }
  /-- `_startTracking` sets the tick. -/
  | ticks {hs : List Handler} (hfinal : Finalizing hs ↔ Finalizing m.handlers)
      (hcancel : .cancelling ∈ m.handlers → .cancelling ∈ hs) :
      Moves m (.resumed .pushing) { m with companionTick := m.companionTick.take, handlers := hs }
  /-- A meeting is detected, and nobody is asked. -/
  | notices {key : Text} (hnew : m.IsNew key) (hauto : m.settings.autoStartTracking = false)
      (hnotify : m.settings.notifyOnDetect = false) : Moves m (.detected key) { m with seen := insert key m.seen }
  /-- A meeting is detected, and the user is asked. -/
  | prompts {key : Text} (hnew : m.IsNew key) (hauto : m.settings.autoStartTracking = false)
      (hnotify : m.settings.notifyOnDetect = true) :
      Moves m (.detected key) { m with
        seen := insert key m.seen, awaiting := some key, state := .awaitingDecision,
        history := m.history ++ [Note.prompted key], handlers := .prompting :: m.handlers }
  /-- A meeting is detected, and tracked. -/
  | tracks {key : Text} (hnew : m.IsNew key) (hauto : m.settings.autoStartTracking = true) :
      Moves m (.detected key) ({ m with seen := insert key m.seen }.startTracking key)
  /-- The user wants it tracked. -/
  | accepts {key : Text} (hawaiting : m.awaiting = some key) : Moves m (.acted key .start) (m.startTracking key)
  /-- The user dismisses it. -/
  | dismisses {key : Text} (hawaiting : m.awaiting = some key) :
      Moves m (.acted key .dismiss) { m with
        dismissed := insert key m.dismissed, awaiting := none, state := .notRunning,
        history := m.history ++ [Note.dismissed key], handlers := .clearing :: m.handlers }
  /-- A `_finalize` begins. -/
  | finalizes {a : Action} {c : Controller R} {hs : List Handler} (hstate : m.state = .tracking)
      (hfinal : .stopping ∈ hs) :
      Moves m a { m with
        state := .finalizing, companionTick := m.companionTick.cancel.drop, listening := c,
        history := m.history ++ (m.active.map Note.finalized).toList, handlers := hs }
  /-- A `_finalize` ends. -/
  | finishes {hs : List Handler} (hmem : .hidingCompanion ∈ m.handlers) :
      Moves m (.resumed .hidingCompanion) { m.finished with handlers := hs }

section Moves
variable {m m' : Manager R} {a : Action} {c : Controller R}

theorem finalizing_cons {h : Handler} {hs : List Handler} (h1 : h ≠ .stopping) (h2 : h ≠ .hidingCompanion) :
    Finalizing (h :: hs) ↔ Finalizing hs := by
  simp [Finalizing, h1.symm, h2.symm]

theorem finalizing_erase {h : Handler} {hs : List Handler} (h1 : h ≠ .stopping) (h2 : h ≠ .hidingCompanion) :
    Finalizing (hs.erase h) ↔ Finalizing hs :=
  or_congr (List.mem_erase_of_ne h1.symm) (List.mem_erase_of_ne h2.symm)

theorem finalize_of_tracking (h : m.state = .tracking) :
    m.finalize = { m with
      state := .finalizing, companionTick := m.companionTick.cancel.drop, listening := m.listening.stop,
      history := m.history ++ (m.active.map Note.finalized).toList, handlers := .stopping :: m.handlers } := by
  rw [Manager.finalize, if_pos h]
  rfl

/-- A `_finalize` begins, or does nothing. -/
theorem moves_finalize : Moves m a m.finalize := by
  by_cases h : m.state = .tracking
  · rw [finalize_of_tracking h]
    exact .finalizes h (by simp)
  · rw [Manager.finalize, if_neg h]
    exact .keeps id Iff.rfl id

/-- The controller becomes `c`: the manager finalizes, or does not care. -/
theorem watch_cases (hc : m.listening.Told c) :
    (m.watch c = { m with listening := c } ∧
      (m.state ≠ .tracking ∨ (Active m.listening.state → Active c.state))) ∨
    (m.state = .tracking ∧ m.watch c = { m with listening := c }.finalize) := by
  unfold Manager.watch
  split_ifs with hn
  · have hstate : c.state = m.listening.state := hc.resolve_right (by omega)
    exact Or.inl ⟨rfl, Or.inr fun hm => hstate ▸ hm⟩
  · unfold Manager.onListeningChanged
    split_ifs with h
    · exact Or.inr ⟨h.1, rfl⟩
    · refine Or.inl ⟨rfl, ?_⟩
      by_cases hs : m.state = .tracking
      · exact Or.inr fun _ => by_contra fun hnot => h ⟨hs, hnot⟩
      · exact Or.inl hs

/-- The controller becomes `c`. -/
theorem moves_watch (hc : m.listening.Told c) : Moves m a (m.watch c) := by
  obtain ⟨he, hs | hactive⟩ | ⟨hs, he⟩ := watch_cases hc
  · exact he ▸ .leaves hs Iff.rfl
  · exact he ▸ .keeps hactive Iff.rfl id
  · rw [he, finalize_of_tracking (m := { m with listening := c }) hs]
    exact .finalizes hs (by simp)

/-- The controller becomes `c`, and a handler waits for it. -/
theorem moves_watch_suspend (hc : m.listening.Told c) : Moves m a ((m.watch c).suspend .relaying) := by
  obtain ⟨he, hs | hactive⟩ | ⟨hs, he⟩ := watch_cases hc
  · exact he ▸ .leaves hs (finalizing_cons (by simp) (by simp))
  · exact he ▸ .keeps hactive (finalizing_cons (by simp) (by simp)) (List.mem_cons_of_mem _)
  · rw [he, finalize_of_tracking (m := { m with listening := c }) hs]
    exact .finalizes hs (by simp)

/-- A `start` of the controller is not the end of its session. -/
theorem watch_start : m.watch m.listening.start = { m with listening := m.listening.start } := by
  obtain ⟨he, -⟩ | ⟨hs, he⟩ := watch_cases (m := m) (Controller.told_of_step (a := .start) rfl)
  · exact he
  · unfold Manager.watch at he ⊢
    split_ifs at he ⊢ with hn
    · rfl
    · have hactive : Active m.listening.start.state := by
        unfold Controller.start at hn ⊢
        split_ifs at hn ⊢ with hidle
        · exact Or.inl rfl
        · exact absurd rfl hn
      rw [Manager.onListeningChanged, if_neg fun h => h.2 hactive]

theorem moves_onDetected {key : Text} : Moves m (.detected key) (m.onDetected key) := by
  unfold Manager.onDetected
  by_cases hnew : m.IsNew key
  · rw [if_pos hnew]
    cases hauto : m.settings.autoStartTracking with
    | true => simpa [hauto] using Moves.tracks hnew hauto
    | false =>
      cases hnotify : m.settings.notifyOnDetect with
      | true => simpa [hauto, hnotify, Manager.suspend] using Moves.prompts hnew hauto hnotify
      | false => simpa [hauto, hnotify] using Moves.notices hnew hauto hnotify
  · rw [if_neg hnew]
    exact .keeps id Iff.rfl id

theorem moves_onNotificationAction {key : Text} {type : NotificationActionType} :
    Moves m (.acted key type) (m.onNotificationAction key type) := by
  unfold Manager.onNotificationAction
  split_ifs with hawaiting
  · cases type with
    | start => exact .accepts hawaiting
    | dismiss => exact .dismisses hawaiting
  · exact .keeps id (finalizing_cons (by simp) (by simp)) (List.mem_cons_of_mem _)

theorem moves_onEnded {key : Text} : Moves m a (m.onEnded key) := by
  unfold Manager.onEnded
  cases m.active with
  | none => exact .keeps id Iff.rfl id
  | some active =>
    dsimp only
    split_ifs
    · exact .keeps id Iff.rfl id
    · exact moves_finalize

theorem moves_onCompanionCommand {command : CompanionCommand} : Moves m a (m.onCompanionCommand command) := by
  cases command with
  | pause => exact moves_watch_suspend (Controller.told_of_step (a := .pause) rfl)
  | resume => exact moves_watch_suspend (Controller.told_of_step (a := .resume) rfl)
  | stop => exact moves_finalize
  | openInNotely => exact .keeps id Iff.rfl id

/-- A handler gives way to another of the same kind. -/
theorem finalizing_cons_erase {h h' : Handler} {hs : List Handler} (h1 : h ≠ .stopping) (h2 : h ≠ .hidingCompanion)
    (h1' : h' ≠ .stopping) (h2' : h' ≠ .hidingCompanion) : Finalizing (h' :: hs.erase h) ↔ Finalizing hs :=
  (finalizing_cons h1' h2').trans (finalizing_erase h1 h2)

theorem moves_resume {h : Handler} (hmem : h ∈ m.handlers) :
    Moves m (.resumed h) ({ m with handlers := m.handlers.erase h }.resume h) := by
  have hcancel : h ≠ .cancelling → .cancelling ∈ m.handlers → .cancelling ∈ m.handlers.erase h :=
    fun hne hm => (List.mem_erase_of_ne hne.symm).mpr hm
  cases h with
  | cancelling =>
    rw [Manager.resume, watch_start]
    exact .starts (finalizing_cons_erase (by simp) (by simp) (by simp) (by simp))
  | starting =>
    unfold Manager.resume
    split_ifs
    · exact .keeps id (finalizing_cons_erase (by simp) (by simp) (by simp) (by simp))
        fun hm => List.mem_cons_of_mem _ (hcancel (by simp) hm)
    · exact .keeps id (finalizing_erase (by simp) (by simp)) (hcancel (by simp))
  | showing =>
    exact .keeps id (finalizing_cons_erase (by simp) (by simp) (by simp) (by simp))
      fun hm => List.mem_cons_of_mem _ (hcancel (by simp) hm)
  | pushing => exact .ticks (finalizing_erase (by simp) (by simp)) (hcancel (by simp))
  | stopping =>
    have hfinal : Finalizing (.hidingCompanion :: m.handlers.erase .stopping) ↔ Finalizing m.handlers :=
      iff_of_true (Or.inr (by simp)) (Or.inl hmem)
    exact .keeps id hfinal fun hm => List.mem_cons_of_mem _ (hcancel (by simp) hm)
  | hidingCompanion => exact .finishes hmem
  | prompting | clearing | relaying | updating =>
    exact .keeps id (finalizing_erase (by simp) (by simp)) (hcancel (by simp))

/-- **A step does one of these.** -/
theorem moves_of_step (hs : m.step a = some m') : Moves m a m' := by
  cases a with
  | detected key => exact Option.some.inj hs ▸ moves_onDetected
  | acted key type => exact Option.some.inj hs ▸ moves_onNotificationAction
  | ended key => exact Option.some.inj hs ▸ moves_onEnded
  | commanded command => exact Option.some.inj hs ▸ moves_onCompanionCommand
  | updated settings =>
    exact Option.some.inj hs ▸ .keeps id (finalizing_cons (by simp) (by simp)) (List.mem_cons_of_mem _)
  | resumed h =>
    obtain ⟨hmem, rfl⟩ := Option.ite_some_none_eq_some.mp hs
    exact moves_resume hmem
  | listening b =>
    obtain ⟨c, hc, rfl⟩ := Option.map_eq_some_iff.mp hs
    exact moves_watch (Controller.told_of_step hc)

end Moves

end Notely.Desktop.MeetingSession
