import Notely.Desktop.CaptureSafety
import Notely.Desktop.Detector

/-! # Providers that are not enabled

A native detector, `PlatformMeetingDetector` of `services/meetings/meeting_detector.dart`, and the manager of
`Desktop/MeetingSession`, with what is on its way between them: the calls of the client and the events of the
detector, each in its order. A meeting is known by `meetingKey` of `services/meetings/meeting_event.dart`; what a
native detector never sends, a title or an id of the meeting, is left out.

Neither the client nor the detectors of Windows and Linux look at the providers that are enabled.

* `step`: a poll, a call or an event that arrives, new settings, or the manager alone.
* `gated_iff`: **only meetings of enabled providers are surfaced** exactly when no event of another provider arrives
  that the manager does not ignore.
* `enabled_of_sent`: what the detector of macOS sends. -/

namespace Notely.Desktop.ProviderGate

open Notely.Lib.Lts Notely.Lib.Strings Notely.Desktop.Capture Notely.Desktop.MeetingSession Notely.Desktop.Detector

/-! ### Events -/

/-- `MeetingProvider`. -/
inductive MeetingProvider
  | teams
  | zoom
  | googleMeet
  | whatsapp
  | discord
  | generic
  deriving DecidableEq

/-- `id`. -/
def MeetingProvider.id : MeetingProvider → Text
  | teams => "teams".toList
  | zoom => "zoom".toList
  | googleMeet => "googleMeet".toList
  | whatsapp => "whatsapp".toList
  | discord => "discord".toList
  | generic => "generic".toList

/-- `fromId`. -/
def MeetingProvider.fromId (id : Text) : MeetingProvider :=
  if id = "teams".toList then teams
  else if id = "zoom".toList then zoom
  else if id = "googleMeet".toList ∨ id = "google_meet".toList ∨ id = "meet".toList then googleMeet
  else if id = "whatsapp".toList then whatsapp
  else if id = "discord".toList then discord
  else generic

theorem MeetingProvider.fromId_id (p : MeetingProvider) : fromId p.id = p := by cases p <;> decide

/-- `meetingKey`, without an id of the meeting: the provider, the application and ten minutes. -/
def meetingKey (provider : MeetingProvider) (startedAtMs : ℤ) (sourceApplication : Text) : Text :=
  provider.id ++ ':' :: sourceApplication ++ ':' :: (toString (startedAtMs.tdiv (10 * 60 * 1000))).toList

/-! ### The system -/

/-- The detector and the client. `heard` of the detector's events have arrived. -/
structure Gate (R : Recorder) where
  runner : Runner
  heard : ℕ := 0
  calls : List Call
  enabledProviders : List MeetingProvider
  manager : Manager R

inductive Action
  /-- The detector polls. -/
  | poll (now : ℤ) (found : Option (Text × Text))
  /-- The next call arrives. -/
  | call (now : ℤ)
  /-- The next event arrives: `_onNativeEvent`. -/
  | hear
  /-- `updateSettings`. -/
  | updateSettings (settings : MeetingDetectionSettings) (enabledProviders : List MeetingProvider)
  /-- The user acts, a handler goes on, or the controller moves. -/
  | manager (a : MeetingSession.Action)

/-- The actions of the manager that neither an event nor new settings bring. -/
def alone : MeetingSession.Action → Bool
  | .detected _ | .ended _ | .updated _ => false
  | _ => true

namespace Gate

variable {R : Recorder} (s : Gate R)

/-- An event reaches the manager. -/
def receive (m : Manager R) : NativeEvent → Manager R
  | .detected provider startedAtMs source =>
    m.onDetected (meetingKey (.fromId provider) startedAtMs source)
  | .ended _ => m.onEnded []

/-- **A poll, a call or an event that arrives, new settings, or the manager alone.** -/
def step : Action → Option (Gate R)
  | .poll now found => some { s with runner := s.runner.poll now found }
  | .call now =>
    match s.calls with
    | c :: calls => some { s with runner := s.runner.handle now c, calls := calls }
    | [] => none
  | .hear =>
    match s.runner.sent[s.heard]? with
    | some event => some { s with heard := s.heard + 1, manager := receive s.manager event }
    | none => none
  | .updateSettings settings enabledProviders =>
    (s.manager.step (.updated settings)).map fun m =>
      { s with
        manager := m
        enabledProviders := enabledProviders
        calls := s.calls ++ [.setProviders (enabledProviders.map MeetingProvider.id)] }
  | .manager a => if alone a then (s.manager.step a).map fun m => { s with manager := m } else none

end Gate

variable {R : Recorder}

/-- The client has started the detector. -/
def started (platform : Platform) (companionOverlay : Bool) (settings : MeetingDetectionSettings)
    (enabledProviders : List MeetingProvider) : Gate R where
  runner := { platform := platform }
  calls := [.start (enabledProviders.map MeetingProvider.id)]
  enabledProviders := enabledProviders
  manager := MeetingSession.started companionOverlay settings

/-! ### What is surfaced -/

/-- A detection with which a prompt is shown or tracking begins, and the providers enabled then. -/
structure Surfaced where
  provider : MeetingProvider
  key : Text
  enabledProviders : List MeetingProvider

/-- A prompt is shown, or tracking begins. -/
def Surfaces (m m' : Manager R) : Prop := m'.history ≠ m.history ∨ m.state ≠ .tracking ∧ m'.state = .tracking

instance (m m' : Manager R) : Decidable (Surfaces m m') := inferInstanceAs (Decidable (_ ∨ _))

/-- What a step surfaces. -/
def surfaced (s : Gate R) : Action → List Surfaced
  | .hear =>
    match s.runner.sent[s.heard]? with
    | some (.detected provider startedAtMs source) =>
      let key := meetingKey (.fromId provider) startedAtMs source
      if Surfaces s.manager (s.manager.onDetected key) then [⟨.fromId provider, key, s.enabledProviders⟩] else []
    | _ => []
  | _ => []

/-- What a run surfaces. -/
def surfacedIn (s : Gate R) (as : List Action) : List Surfaced := trace Gate.step surfaced s as

/-- **Every detection that is surfaced is of a provider enabled at the time.** -/
def Gated (l : List Surfaced) : Prop := ∀ d ∈ l, d.provider ∈ d.enabledProviders

/-- A detection that arrives, and is not ignored, is of a provider that is enabled. -/
def Admits (s : Gate R) : Action → Prop
  | .hear => ∀ provider startedAtMs source, s.runner.sent[s.heard]? = some (.detected provider startedAtMs source) →
      s.manager.IsNew (meetingKey (.fromId provider) startedAtMs source) →
      (s.manager.settings.autoStartTracking = true ∨ s.manager.settings.notifyOnDetect = true) →
      .fromId provider ∈ s.enabledProviders
  | _ => True

section Surfaces
variable {m : Manager R} {key : Text}

theorem surfaces_onDetected_iff : Surfaces m (m.onDetected key) ↔
    m.IsNew key ∧ (m.settings.autoStartTracking = true ∨ m.settings.notifyOnDetect = true) := by
  unfold Manager.onDetected
  split_ifs with hnew
  · have hstate : m.state ≠ .tracking := hnew.2.2.2
    cases hauto : m.settings.autoStartTracking with
    | true => simp [Surfaces, hauto, hnew, hstate, Manager.startTracking, Manager.suspend]
    | false =>
      cases hnotify : m.settings.notifyOnDetect with
      | true => simp [Surfaces, hauto, hnotify, hnew, Manager.suspend]
      | false => simp [Surfaces, hauto, hnotify]
  · simp [Surfaces, hnew]

/-- **What a step surfaces** is of an enabled provider exactly when the step admits no other. -/
theorem gated_surfaced_iff (s : Gate R) (a : Action) : Gated (surfaced s a) ↔ Admits s a := by
  cases a with
  | hear =>
    simp only [surfaced, Admits, Gated]
    cases hevent : s.runner.sent[s.heard]? with
    | none => simp
    | some event =>
      cases event with
      | detected provider startedAtMs source =>
        have hiff := @surfaces_onDetected_iff R s.manager (meetingKey (.fromId provider) startedAtMs source)
        constructor
        · rintro h p t src heq hnew hasks
          obtain ⟨rfl, rfl, rfl⟩ := NativeEvent.detected.inj (Option.some.inj heq)
          have hs := hiff.mpr ⟨hnew, hasks⟩
          simpa [hs] using h
        · intro h
          dsimp only
          split_ifs with hs
          · obtain ⟨hnew, hasks⟩ := hiff.mp hs
            simpa using h provider startedAtMs source rfl hnew hasks
          · simp
      | ended now => simp
  | _ => simp [surfaced, Admits, Gated]

/-- A prompt has been shown for the meeting, it waits for an answer, or it is tracked. -/
def Handled (m : Manager R) (key : Text) : Prop :=
  .prompted key ∈ m.history ∨ m.awaiting = some key ∨ m.active = some key

theorem handled_of_moves {m' : Manager R} {a : MeetingSession.Action} (h : Moves m a m') (hkey : Handled m' key) :
    Handled m key ∨ a = .detected key ∧ m.IsNew key ∧
      (m.settings.autoStartTracking = true ∨ m.settings.notifyOnDetect = true) := by
  unfold Handled at *
  cases h with
  | keeps | leaves | starts | ticks | notices => exact Or.inl hkey
  | @prompts key' hnew hauto hnotify =>
    simp only [List.mem_append, List.mem_singleton, Note.prompted.injEq, Option.some.injEq] at hkey
    rcases hkey with (hkey | rfl) | rfl | hkey
    · exact Or.inl (Or.inl hkey)
    · exact Or.inr ⟨rfl, hnew, Or.inr hnotify⟩
    · exact Or.inr ⟨rfl, hnew, Or.inr hnotify⟩
    · exact Or.inl (Or.inr (Or.inr hkey))
  | @tracks key' hnew hauto =>
    simp only [Manager.startTracking, Manager.suspend, reduceCtorEq, false_or, Option.some.injEq] at hkey
    rcases hkey with hkey | rfl
    · exact Or.inl (Or.inl hkey)
    · exact Or.inr ⟨rfl, hnew, Or.inl hauto⟩
  | @accepts key' hawaiting =>
    simp only [Manager.startTracking, Manager.suspend, reduceCtorEq, false_or, Option.some.injEq] at hkey
    rcases hkey with hkey | rfl
    · exact Or.inl (Or.inl hkey)
    · exact Or.inl (Or.inr (Or.inl hawaiting))
  | dismisses hawaiting =>
    simp only [List.mem_append, List.mem_singleton, reduceCtorEq, or_false, false_or] at hkey
    exact Or.inl (hkey.imp id Or.inr)
  | finalizes hstate hfinal =>
    simp only [List.mem_append, Option.mem_toList, Option.map_eq_some_iff, reduceCtorEq, and_false, exists_false,
      or_false] at hkey
    exact Or.inl hkey
  | finishes hmem =>
    simp only [Manager.finished, reduceCtorEq, or_false] at hkey
    exact Or.inl (hkey.imp id Or.inl)

end Surfaces

/-! ### A run -/

section Runs
variable {s s' : Gate R} {a : Action}

/-- A meeting the manager handles was surfaced. -/
def Recorded (m : Manager R) (l : List Surfaced) : Prop := ∀ key, Handled m key → ∃ d ∈ l, d.key = key

theorem recorded_of_moves {l : List Surfaced} {m m' : Manager R} {b : MeetingSession.Action} (h : Recorded m l)
    (hm : Moves m b m') (hnot : ∀ key, b ≠ .detected key) : Recorded m' l := by
  intro key hkey
  rcases handled_of_moves hm hkey with hkey | ⟨hb, -, -⟩
  · exact h key hkey
  · exact absurd hb (hnot key)

theorem recorded_hear {l : List Surfaced} (h : Recorded s.manager l) (hs : s.step .hear = some s') :
    Recorded s'.manager (l ++ surfaced s .hear) := by
  simp only [Gate.step] at hs
  split at hs
  · next event hevent =>
    obtain rfl := Option.some.inj hs
    cases event with
    | detected provider startedAtMs source =>
      intro key hkey
      rcases handled_of_moves (moves_onDetected (m := s.manager)) hkey with hkey | ⟨hb, hnew, hasks⟩
      · obtain ⟨d, hd, hkey⟩ := h key hkey
        exact ⟨d, by simp [hd], hkey⟩
      · obtain rfl := MeetingSession.Action.detected.inj hb
        have hsurfaces := surfaces_onDetected_iff.mpr ⟨hnew, hasks⟩
        refine ⟨⟨.fromId provider, meetingKey (.fromId provider) startedAtMs source, s.enabledProviders⟩, ?_, rfl⟩
        simp [surfaced, hevent, hsurfaces]
    | ended now =>
      have hmoves : Moves s.manager (.ended []) (s.manager.onEnded []) := moves_onEnded
      have hkept := recorded_of_moves h hmoves (by simp)
      simpa [surfaced, hevent, Gate.receive] using hkept
  · cases hs

theorem recorded_step {l : List Surfaced} (h : Recorded s.manager l) (hs : s.step a = some s') :
    Recorded s'.manager (l ++ surfaced s a) := by
  cases a with
  | hear => exact recorded_hear h hs
  | poll now found =>
    obtain rfl := Option.some.inj hs
    simpa [surfaced] using h
  | call now =>
    simp only [Gate.step] at hs
    split at hs
    · obtain rfl := Option.some.inj hs
      simpa [surfaced] using h
    · cases hs
  | updateSettings settings enabledProviders =>
    simp only [Gate.step, Option.map_eq_some_iff] at hs
    obtain ⟨m, hm, rfl⟩ := hs
    simpa [surfaced] using recorded_of_moves h (moves_of_step hm) (by simp)
  | manager b =>
    simp only [Gate.step, Option.ite_none_right_eq_some, Option.map_eq_some_iff] at hs
    obtain ⟨halone, m, hm, rfl⟩ := hs
    have hnot : ∀ key, b ≠ .detected key := by
      rintro key rfl
      cases halone
    simpa [surfaced] using recorded_of_moves h (moves_of_step hm) hnot

/-- **Only meetings of enabled providers are surfaced**, exactly when no event of another provider arrives that the
manager does not ignore; and every meeting with a prompt, or that is tracked, was surfaced. -/
theorem gated_iff {platform : Platform} {companionOverlay : Bool} {settings : MeetingDetectionSettings}
    {enabledProviders : List MeetingProvider} {as : List Action}
    (hr : run Gate.step (started platform companionOverlay settings enabledProviders) as = some s) :
    (Gated (surfacedIn (started (R := R) platform companionOverlay settings enabledProviders) as) ↔
      Along Gate.step Admits (started (R := R) platform companionOverlay settings enabledProviders) as) ∧
    ∀ key, Handled s.manager key →
      ∃ d ∈ surfacedIn (started (R := R) platform companionOverlay settings enabledProviders) as, d.key = key := by
  refine ⟨forall_mem_trace.trans (along_congr gated_surfaced_iff), ?_⟩
  have hstart : Recorded (MeetingSession.started (R := R) companionOverlay settings) [] := by
    rintro key (hkey | hkey | hkey) <;> simp [MeetingSession.started] at hkey
  have hstep (s : Gate R) (l : List Surfaced) (a : Action) (s' : Gate R) (h : Recorded s.manager l) (_ : True)
      (hs : s.step a = some s') : Recorded s'.manager (l ++ surfaced s a) := recorded_step h hs
  exact inv_trace hstep hstart (fun _ _ => trivial) hr

end Runs

/-! ### What the detector of macOS sends -/

section Macos
variable {r : Runner} {now : ℤ} {found : Option (Text × Text)} {provider source : Text} {startedAtMs : ℤ}

/-- What a poll sends of a meeting is, on macOS, of a provider that the detector was last told to be enabled, unless
it was told of none. -/
theorem enabled_of_sent (hplatform : r.platform = .macos)
    (hsent : (r.evaluate now found).sent = r.sent ++ [.detected provider startedAtMs source]) :
    r.enabled = [] ∨ provider ∈ r.enabled := by
  cases found with
  | none =>
    unfold Runner.evaluate at hsent
    dsimp only at hsent
    split_ifs at hsent <;> simp at hsent
  | some found =>
    obtain ⟨p, src⟩ := found
    unfold Runner.evaluate at hsent
    dsimp only at hsent
    split_ifs at hsent with hquiet
    · simp at hsent
    · obtain ⟨rfl, -, -⟩ : p = provider ∧ now = startedAtMs ∧ src = source := by simpa using hsent
      by_contra hnot
      rw [not_or] at hnot
      exact hquiet (by simp [Runner.silences, hplatform, hnot.1, hnot.2])

/-- Outside macOS, what a detector is told of the providers changes nothing. -/
theorem handle_setProviders (hplatform : r.platform ≠ .macos) (providers : List Text) :
    r.handle now (.setProviders providers) = r := by
  simp [Runner.handle, hplatform]

end Macos

/-- The detector starts, sees a call, and is heard. -/
def seen (provider : String) : List Action :=
  [.call 0, .poll 0 (some (provider.toList, "windows".toList)), .hear]

/-- Zoom alone is enabled, and a Zoom call is seen. -/
theorem gated_zoom :
    Gated (surfacedIn (started (R := CaptureSafety.plain) .windows true {} [.zoom]) (seen "zoom")) := by
  refine (gated_iff (R := CaptureSafety.plain) (s := _) rfl).1.mpr ⟨trivial, trivial, ?_, trivial⟩
  intro provider startedAtMs source hevent _ _
  obtain ⟨rfl, -, -⟩ := NativeEvent.detected.inj (Option.some.inj hevent)
  decide

/-- Teams alone is enabled, and a Discord call is seen: the user is asked about it. -/
theorem not_gated_discord :
    (∃ s : Gate CaptureSafety.plain, run Gate.step (started .windows true {} [.teams]) (seen "discord") = some s ∧
      s.manager.history = [.prompted (meetingKey .discord 0 "windows".toList)]) ∧
    ¬ Gated (surfacedIn (started (R := CaptureSafety.plain) .windows true {} [.teams]) (seen "discord")) := by
  refine ⟨⟨_, rfl, rfl⟩, fun h => ?_⟩
  have hmem : (⟨.discord, meetingKey .discord 0 "windows".toList, [.teams]⟩ : Surfaced) ∈
      surfacedIn (started (R := CaptureSafety.plain) .windows true {} [.teams]) (seen "discord") :=
    List.mem_singleton_self _
  exact absurd (h _ hmem) (by decide)

end Notely.Desktop.ProviderGate
