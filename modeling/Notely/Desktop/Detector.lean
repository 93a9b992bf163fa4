import Mathlib.Data.List.Infix
import Notely.Desktop.MeetingSession

/-! # The native meeting detectors

`windows/runner/notely_runtime.cpp`, `linux/runner/notely_runtime.cc` and `macos/Runner/MainFlutterWindow.swift`. A
detector polls: it looks which process captures sound (on macOS, whether any does, and which applications run), and
sends an event when that begins and when it ends. The two first take the provider from the capturing process and do
not care for the providers that are enabled; the third one sends nothing of a provider that is not enabled. The
events are listened to; on Windows every second tick of the timer is a poll, and on macOS a start is one.

* `evaluate`: a poll.
* `follows_iff`: what is sent **follows the capture sessions of others** exactly when Notely's own is never the only
  one. -/

namespace Notely.Desktop.Detector

open Notely.Lib.Strings

/-! ### Windows -/

/-- `AudioSessionState`. -/
inductive AudioSessionState
  | inactive
  | active
  | expired
  deriving DecidableEq

/-- A session of a capture device: its state and its process, as far as the calls succeed. -/
structure Session where
  state : Option AudioSessionState
  pid : Option ℕ

/-- `ProviderForExe`. -/
def providerForExe (exe : Text) : Text :=
  if exe = "teams.exe".toList ∨ exe = "ms-teams.exe".toList then "teams".toList
  else if exe = "zoom.exe".toList then "zoom".toList
  else if exe = "discord.exe".toList then "discord".toList
  else if exe = "whatsapp.exe".toList then "whatsapp".toList
  else "generic".toList

/-- The process of an active session. -/
def Session.capturing (s : Session) : Option ℕ :=
  if s.state = some .active then s.pid.filter (· ≠ 0) else none

/-- `DetectActiveCaptureProvider`: the devices with their sessions, as far as they can be enumerated, and the name of
the executable of a process. -/
def detectActiveCaptureProvider (exeNameForPid : ℕ → Text) (devices : List (List Session)) : Option Text :=
  devices.findSome? fun sessions =>
    sessions.findSome? fun s => s.capturing.map fun pid => providerForExe (exeNameForPid pid)

/-- The processes with an active session. -/
def activePids (devices : List (List Session)) : List ℕ := devices.flatten.filterMap Session.capturing

/-- What a poll on Windows finds. -/
def windowsFound (exeNameForPid : ℕ → Text) (devices : List (List Session)) : Option (Text × Text) :=
  (detectActiveCaptureProvider exeNameForPid devices).map (·, "windows".toList)

/-! ### Linux -/

/-- `strstr`: the text from the first occurrence on. -/
def strstr (needle : Text) : Text → Option Text
  | [] => if needle = [] then some [] else none
  | c :: cs => if needle <+: c :: cs then some (c :: cs) else strstr needle cs

/-- `provider_for_app_name`. -/
def providerForAppName (name : Text) : Text :=
  let has (part : String) := (strstr part.toList name).isSome
  if has "zoom" then "zoom".toList
  else if has "teams" then "teams".toList
  else if has "discord" then "discord".toList
  else if has "whatsapp" then "whatsapp".toList
  else "generic".toList

/-- The text between the first two quotes. -/
def quoted (line : Text) : Option Text :=
  let start := (line.dropWhile (· ≠ '"')).tail
  if start.contains '"' then some (start.takeWhile (· ≠ '"')) else none

/-- `detect_active_capture_provider`, of what `pactl list source-outputs` writes, if it can be run. -/
def detectPactl (out : Option Text) : Option Text :=
  out.bind fun out =>
    if (strstr "Source Output #".toList out).isSome then
      match (strstr "application.name = ".toList out).bind quoted with
      | some app => some (providerForAppName (app.map Char.toLower))
      | none => some "generic".toList
    else none

/-- What a poll on Linux finds. -/
def linuxFound (out : Option Text) : Option (Text × Text) := (detectPactl out).map (·, "linux".toList)

/-- An application that captures. -/
structure SourceOutput where
  pid : ℕ
  name : Text
  deriving DecidableEq

/-! ### macOS -/

/-- `dedicatedApps`. -/
def dedicatedApps : List (Text × Text) :=
  [("us.zoom.xos".toList, "zoom".toList), ("com.microsoft.teams".toList, "teams".toList),
    ("com.microsoft.teams2".toList, "teams".toList), ("com.hnc.Discord".toList, "discord".toList),
    ("net.whatsapp.WhatsApp".toList, "whatsapp".toList), ("WhatsApp".toList, "whatsapp".toList)]

def browsers : List Text :=
  ["com.google.Chrome", "com.google.Chrome.beta", "com.apple.Safari", "org.mozilla.firefox", "com.microsoft.edgemac",
    "com.brave.Browser"].map String.toList

/-- `detectProvider`, of the bundle identifiers of the running applications. -/
def detectProvider (running : List Text) : Text × Text :=
  match running.findSome? fun bid => (dedicatedApps.lookup bid).map (·, bid) with
  | some found => found
  | none =>
    match running.find? browsers.contains with
    | some bid => ("generic".toList, bid)
    | none => ("generic".toList, "unknown".toList)

/-- What a poll on macOS finds. -/
def macosFound (micOn : Bool) (running : List Text) : Option (Text × Text) :=
  if micOn then some (detectProvider running) else none

/-! ### The runners -/

inductive Platform
  | windows
  | linux
  | macos
  deriving DecidableEq

/-- What a runner sends. -/
inductive NativeEvent
  | detected (provider : Text) (startedAtMs : ℤ) (sourceApplication : Text)
  | ended (endedAtMs : ℤ)
  deriving DecidableEq

/-- What a runner is asked. -/
inductive Call
  | start (providers : List Text)
  | setProviders (providers : List Text)
  | stop
  deriving DecidableEq

/-- The detector of a runner, with the events it has sent. -/
structure Runner where
  platform : Platform
  running : Bool := false
  meetingActive : Bool := false
  enabled : List Text := []
  sent : List NativeEvent := []
  deriving DecidableEq

namespace Runner

variable (r : Runner)

/-- A meeting of the provider is not reported. -/
def silences (provider : Text) : Bool :=
  r.platform = .macos && ! r.enabled.isEmpty && ! r.enabled.contains provider

/-- **A poll**, `EvaluateDetector`, `detector_poll` or `evaluate`: what it finds is the provider of a capturing
process and an application. -/
def evaluate (now : ℤ) (found : Option (Text × Text)) : Runner :=
  match found with
  | some (provider, source) =>
    if r.meetingActive || r.silences provider then r
    else { r with meetingActive := true, sent := r.sent ++ [.detected provider now source] }
  | none => if r.meetingActive then { r with meetingActive := false, sent := r.sent ++ [.ended now] } else r

/-- A turn of the timer. -/
def poll (now : ℤ) (found : Option (Text × Text)) : Runner := if r.running then r.evaluate now found else r

/-- A call is handled. -/
def handle (now : ℤ) : Call → Runner
  | .start providers =>
    { r with running := true, enabled := if r.platform = .macos then providers else r.enabled }
  -- elsewhere the providers are left to Dart
  | .setProviders providers => { r with enabled := if r.platform = .macos then providers else r.enabled }
  | .stop =>
    if r.meetingActive then { r with running := false, meetingActive := false, sent := r.sent ++ [.ended now] }
    else { r with running := false }

/-- Polls, one after the other. -/
def polls (l : List (ℤ × Option (Text × Text))) : Runner := l.foldl (fun r p => r.poll p.1 p.2) r

/-- A meeting is reported as detected, and not yet ended. -/
def Reported : Prop := ∃ provider now source, r.sent.getLast? = some (.detected provider now source)

end Runner

/-- The runner of a platform, asked to start. -/
def watching (platform : Platform) : Runner := { platform := platform, running := true }

/-! ### The capture sessions of others -/

section Follows
variable {r : Runner} {now : ℤ} {found : Option (Text × Text)}

/-- A meeting is active while it is reported. -/
def Told (r : Runner) : Prop := r.meetingActive = true ↔ r.Reported

theorem told_evaluate (h : Told r) (now : ℤ) (found : Option (Text × Text)) : Told (r.evaluate now found) := by
  unfold Told Runner.Reported Runner.evaluate at *
  cases found with
  | some found =>
    obtain ⟨provider, source⟩ := found
    dsimp only
    split_ifs
    · exact h
    · simp
  | none =>
    dsimp only
    split_ifs
    · simp
    · exact h

theorem meetingActive_evaluate (hplatform : r.platform ≠ .macos) (now : ℤ) (found : Option (Text × Text)) :
    (r.evaluate now found).meetingActive = found.isSome := by
  have hsilences (provider : Text) : r.silences provider = false := by simp [Runner.silences, hplatform]
  cases found with
  | some found => cases hactive : r.meetingActive <;> simp [Runner.evaluate, hactive, hsilences]
  | none => cases hactive : r.meetingActive <;> simp [Runner.evaluate, hactive]

theorem platform_evaluate (now : ℤ) (found : Option (Text × Text)) :
    (r.evaluate now found).platform = r.platform ∧ (r.evaluate now found).running = r.running := by
  unfold Runner.evaluate
  cases found with
  | some found =>
    dsimp only
    split_ifs <;> exact ⟨rfl, rfl⟩
  | none =>
    dsimp only
    split_ifs <;> exact ⟨rfl, rfl⟩

/-- A runner that polls, outside macOS. -/
structure Polling (r : Runner) : Prop where
  running : r.running = true
  platform : r.platform ≠ .macos
  told : Told r

theorem polling_watching {platform : Platform} (h : platform ≠ .macos) : Polling (watching platform) :=
  ⟨rfl, h, by simp [Told, Runner.Reported, watching]⟩

theorem polling_polls (h : Polling r) (l : List (ℤ × Option (Text × Text))) : Polling (r.polls l) := by
  induction l generalizing r with
  | nil => exact h
  | cons p l ih =>
    have hpoll : r.poll p.1 p.2 = r.evaluate p.1 p.2 := if_pos h.running
    refine ih (r := r.poll p.1 p.2) ?_
    rw [hpoll]
    obtain ⟨hplatform, hrunning⟩ := platform_evaluate (r := r) p.1 p.2
    exact ⟨hrunning.trans h.running, hplatform ▸ h.platform, told_evaluate h.told p.1 p.2⟩

/-- After a poll, a meeting is reported if the poll has found one. -/
theorem reported_polls (h : Polling r) (l : List (ℤ × Option (Text × Text))) :
    (r.polls (l ++ [(now, found)])).Reported ↔ found.isSome := by
  have hlast := polling_polls h l
  have hpolls : r.polls (l ++ [(now, found)]) = (r.polls l).evaluate now found := by
    rw [Runner.polls, List.foldl_concat]
    exact if_pos hlast.running
  have htold : Told ((r.polls l).evaluate now found) := told_evaluate hlast.told now found
  unfold Told at htold
  rw [hpolls, ← htold, meetingActive_evaluate hlast.platform]

variable {ν : Type} (view : ν → Option (Text × Text)) (pids : ν → List ℕ) (own : ℕ)

/-- A capture session that is not Notely's is active. -/
def External (v : ν) : Prop := ∃ pid ∈ pids v, pid ≠ own

instance (v : ν) : Decidable (External pids own v) := inferInstanceAs (Decidable (∃ pid ∈ pids v, pid ≠ own))

/-- After every poll, a meeting is reported while a capture session that is not Notely's is active. -/
def Follows (platform : Platform) (views : List (ℤ × ν)) : Prop :=
  ∀ before now v, before ++ [(now, v)] <+: views →
    (((watching platform).polls ((before ++ [(now, v)]).map fun w => (w.1, view w.2))).Reported ↔
      External pids own v)

variable {view pids own}

theorem follows_iff {platform : Platform} (hplatform : platform ≠ .macos)
    (hview : ∀ v, (view v).isSome ↔ pids v ≠ []) (views : List (ℤ × ν)) :
    Follows view pids own platform views ↔ ∀ w ∈ views, own ∈ pids w.2 → External pids own w.2 := by
  have hreported (before : List (ℤ × ν)) (now : ℤ) (v : ν) :
      ((watching platform).polls ((before ++ [(now, v)]).map fun w => (w.1, view w.2))).Reported ↔ pids v ≠ [] := by
    rw [List.map_append, List.map_singleton, reported_polls (polling_watching hplatform)]
    exact hview v
  constructor
  · rintro h ⟨now, v⟩ hw hown
    obtain ⟨before, after, rfl⟩ := List.append_of_mem hw
    have hfront : before ++ [(now, v)] <+: before ++ (now, v) :: after := ⟨after, by simp⟩
    exact (h before now v hfront).mp ((hreported before now v).mpr (List.ne_nil_of_mem hown))
  · intro h before now v hfront
    rw [hreported]
    constructor
    · intro hne
      obtain ⟨pid, hpid⟩ := List.exists_mem_of_ne_nil _ hne
      by_cases hp : pid = own
      · exact h (now, v) (hfront.subset (by simp)) (hp ▸ hpid)
      · exact ⟨pid, hpid, hp⟩
    · rintro ⟨pid, hpid, -⟩
      exact List.ne_nil_of_mem hpid

end Follows

/-! ### What the platforms show -/

theorem isSome_windowsFound (exeNameForPid : ℕ → Text) (devices : List (List Session)) :
    (windowsFound exeNameForPid devices).isSome ↔ activePids devices ≠ [] := by
  have hsome (s : Session) : (s.capturing.map fun pid => providerForExe (exeNameForPid pid)).isSome ↔
      ∃ pid, s.capturing = some pid := by
    rw [Option.isSome_map, Option.isSome_iff_exists]
  have hne : activePids devices ≠ [] ↔ ∃ sessions ∈ devices, ∃ s ∈ sessions, ∃ pid, s.capturing = some pid := by
    constructor
    · intro h
      obtain ⟨pid, hpid⟩ := List.exists_mem_of_ne_nil _ h
      obtain ⟨s, hs, hcapturing⟩ := List.mem_filterMap.mp hpid
      obtain ⟨sessions, hsessions, hs⟩ := List.mem_flatten.mp hs
      exact ⟨sessions, hsessions, s, hs, pid, hcapturing⟩
    · rintro ⟨sessions, hsessions, s, hs, pid, hcapturing⟩
      exact List.ne_nil_of_mem (List.mem_filterMap.mpr ⟨s, List.mem_flatten.mpr ⟨_, hsessions, hs⟩, hcapturing⟩)
  rw [hne, windowsFound, Option.isSome_map, detectActiveCaptureProvider, List.findSome?_isSome_iff]
  simp only [List.findSome?_isSome_iff, hsome]

theorem isSome_linuxFound (out : Text) :
    (linuxFound (some out)).isSome ↔ (strstr "Source Output #".toList out).isSome := by
  rw [linuxFound, Option.isSome_map, detectPactl, Option.bind_some]
  split_ifs with h
  · refine iff_of_true ?_ h
    split <;> rfl
  · exact iff_of_false (by simp) h

/-- A tracked meeting is finalized when it is told to have ended. -/
theorem finalizing_of_ended {R : Capture.Recorder} {m : MeetingSession.Manager R} {key : Text}
    (hactive : m.active = some key) (hstate : m.state = .tracking) : (m.onEnded []).state = .finalizing := by
  have hended : m.onEnded [] = m.finalize := by simp [MeetingSession.Manager.onEnded, hactive]
  rw [hended, MeetingSession.finalize_of_tracking hstate]

/-- **The detectors of Windows and Linux follow the capture sessions of others** exactly when in no poll Notely's own
session is the only active one; and what they send of an end finalizes the meeting that is tracked. What `pactl`
writes is a parameter: it has a heading for every application that captures. -/
theorem ignores_own_iff (own : ℕ) (exeNameForPid : ℕ → Text) {pactl : List SourceOutput → Text}
    (hpactl : ∀ outputs, (strstr "Source Output #".toList (pactl outputs)).isSome ↔ outputs ≠ []) :
    (∀ views : List (ℤ × List (List Session)),
      Follows (windowsFound exeNameForPid) activePids own .windows views ↔
        ∀ w ∈ views, own ∈ activePids w.2 → External activePids own w.2) ∧
    (∀ views : List (ℤ × List SourceOutput),
      Follows (fun outputs => linuxFound (some (pactl outputs))) (List.map SourceOutput.pid) own .linux views ↔
        ∀ w ∈ views, own ∈ w.2.map SourceOutput.pid → External (List.map SourceOutput.pid) own w.2) ∧
    ∀ (R : Capture.Recorder) (m : MeetingSession.Manager R) (key : Text), m.active = some key →
      m.state = .tracking → (m.onEnded []).state = .finalizing := by
  refine ⟨fun views => ?_, fun views => ?_, fun R m key => finalizing_of_ended⟩
  · exact follows_iff (by decide) (isSome_windowsFound exeNameForPid) views
  · refine follows_iff (by decide) (fun outputs => ?_) views
    rw [isSome_linuxFound, hpactl]
    exact not_congr List.map_eq_nil_iff.symm

/-- What `pactl` writes, in short. -/
def listing (outputs : List SourceOutput) : Text :=
  outputs.flatMap fun o => "Source Output #".toList ++ Dart.digits o.pid ++ "\n\t\tapplication.name = \"".toList ++
    o.name ++ "\"\n".toList

theorem isSome_strstr_of_starts {needle s : Text} (h : needle <+: s) : (strstr needle s).isSome := by
  cases s with
  | nil => simp [strstr, List.prefix_nil.mp h]
  | cons c cs => simp [strstr, h]

theorem isSome_strstr_listing (outputs : List SourceOutput) :
    (strstr "Source Output #".toList (listing outputs)).isSome ↔ outputs ≠ [] := by
  cases outputs with
  | nil => exact iff_of_false (by decide) (by simp)
  | cons o outputs =>
    refine iff_of_true (isSome_strstr_of_starts ?_) (by simp)
    rw [listing, List.flatMap_cons]
    simp only [List.append_assoc]
    exact List.prefix_append _ _

/-- A call, the call with Notely recording it, and nothing. -/
theorem follows_call :
    Follows (windowsFound fun _ => "zoom.exe".toList) activePids 7 .windows
        [(0, [[⟨some .active, some 3⟩]]), (2000, [[⟨some .active, some 3⟩, ⟨some .active, some 7⟩]]), (4000, [])] ∧
      Follows (fun outputs => linuxFound (some (listing outputs))) (List.map SourceOutput.pid) 7 .linux
        [(0, [⟨3, "ZOOM VoiceEngine".toList⟩]), (2000, [])] :=
  have h := ignores_own_iff 7 (fun _ => "zoom.exe".toList) isSome_strstr_listing
  ⟨(h.1 _).mpr (by decide), (h.2.1 _).mpr (by decide)⟩

/-- The call ends while Notely records it: no end is sent. -/
theorem not_follows_call :
    let views : List (ℤ × List (List Session)) :=
      [(0, [[⟨some .active, some 3⟩]]), (2000, [[⟨some .active, some 3⟩, ⟨some .active, some 7⟩]]),
        (4000, [[⟨some .active, some 7⟩]])]
    let found : List (List Session) → Option (Text × Text) := windowsFound fun _ => "zoom.exe".toList
    ((watching .windows).polls (views.map fun w => (w.1, found w.2))).sent =
        [.detected "zoom".toList 0 "windows".toList] ∧ ¬ Follows found activePids 7 .windows views := by
  refine ⟨by decide, fun h => ?_⟩
  have hlast := h [(0, [[⟨some .active, some 3⟩]]), (2000, [[⟨some .active, some 3⟩, ⟨some .active, some 7⟩]])] 4000
    [[⟨some .active, some 7⟩]] (List.prefix_refl _)
  exact absurd (hlast.mp ⟨"zoom".toList, 0, "windows".toList, rfl⟩) (by decide)

end Notely.Desktop.Detector
