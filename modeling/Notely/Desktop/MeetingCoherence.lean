import Notely.Desktop.CaptureSafety
import Notely.Desktop.MeetingSession

/-! # A tracked meeting and its session

Two things the manager of `Desktop/MeetingSession` is for, at rest, when no handler is suspended: a meeting that is
tracked is captured, and the state says which meeting is awaited or tracked. Neither holds in every run.

* A second meeting may be tracked while the session of the first is in Review. `start` of the controller does
  nothing then, and the manager does not look at what it did: `tracked_in_review`. `tracking_captures`: this is the
  only way.
* A handler that goes on does not look at what happened while it was suspended. A `_finalize` ends whatever was taken
  up in the meantime (`forgotten_prompt`), and a `_startTracking` sets its tick though its meeting was finalized.
  `coherent_at_rest`: the state is coherent in every run in which what goes on was not overtaken (`Current`). -/

namespace Notely.Desktop.MeetingCoherence

open Notely.Lib.Strings Notely.Lib.Handles Notely.Lib.Lts Notely.Desktop.MeetingSession
open Notely.Desktop.Capture (Recorder Controller)
open Notely.Desktop.CaptureSafety (plain Quiet)

variable {R : Recorder} {m m' : Manager R} {a : Action}

/-! ### Tracking means capturing -/

/-- A `_startTracking` that asks the controller to start, and whose meeting is still tracked, does not find a session
in Review. -/
def Free (m : Manager R) : Action → Prop
  | .resumed .cancelling => m.state = .tracking → m.listening.state ≠ .reviewing
  | _ => True

instance (m : Manager R) : DecidablePred (Free m) := fun a => by
  unfold Free
  split <;> infer_instance

/-- A tracked meeting is captured, or is about to. -/
def Captured (m : Manager R) : Prop :=
  m.state = .tracking → Active m.listening.state ∨ .cancelling ∈ m.handlers

theorem active_start {c : Controller R} (h : c.state ≠ .reviewing) : Active c.start.state := by
  unfold Controller.start
  split_ifs with hidle
  · exact Or.inl rfl
  · cases hstate : c.state with
    | idle => exact absurd hstate hidle
    | listening => exact Or.inl rfl
    | paused => exact Or.inr rfl
    | reviewing => exact absurd hstate h

theorem captured_step (hm : Captured m) (hfree : Free m a) (hs : m.step a = some m') : Captured m' := by
  intro ht
  cases moves_of_step hs with
  | keeps hactive _ hcancel => exact (hm ht).imp hactive hcancel
  | leaves hstate => exact absurd ht hstate
  | starts => exact Or.inl (active_start (hfree ht))
  | ticks _ hcancel => exact (hm ht).imp id hcancel
  | notices => exact hm ht
  | tracks | accepts => exact Or.inr (by simp [Manager.startTracking, Manager.suspend])
  | prompts | dismisses | finalizes | finishes => simp [Manager.finished] at ht

/-- **Tracking means capturing**: at rest a tracked meeting has a session that listens or pauses, in every run whose
meetings find no session in Review. -/
theorem tracking_captures {companionOverlay : Bool} {settings : MeetingDetectionSettings}
    (h : Reach Manager.step Free (started companionOverlay settings) m) (hrest : m.handlers = [])
    (ht : m.state = .tracking) : Active m.listening.state := by
  have hcaptured : Captured m := h.inv (I := Captured) (by simp [Captured, started]) fun _ _ _ => captured_step
  simpa [hrest] using hcaptured ht

/-- A session up to its first segments. -/
def opened : List Action :=
  [.listening (.starting .probing {}), .listening (.starting (.opening true) {}), .listening (.starting .opened {})]

/-- It is stopped, and nothing of it is pending. -/
def closed : List Action :=
  [.listening (.stopping .cancelling), .listening (.stopping (.askedRecording true)),
    .listening (.stopping .halting), .listening (.stopping .unsubscribing)]

/-- A meeting is detected, accepted and captured. -/
def accepted (key : Text) : List Action :=
  [.detected key, .resumed .prompting, .acted key .start, .resumed .cancelling] ++ opened ++
    [.resumed .starting, .resumed .showing, .resumed .pushing]

/-- One meeting, accepted and captured. -/
theorem accepted_captured :
    ∃ m : Manager plain, run Manager.step (started true {}) (accepted ['a']) = some m ∧ m.state = .tracking ∧
      Active m.listening.state := by
  have h : ∃ m : Manager plain, run Manager.step (started true {}) (accepted ['a']) = some m ∧ m.handlers = [] ∧
      m.state = .tracking := ⟨_, rfl, rfl, rfl⟩
  obtain ⟨m, hrun, hrest, ht⟩ := h
  exact ⟨m, hrun, ht, tracking_captures (Reach.of_run (by decide) hrun) hrest ht⟩

/-- A tracked meeting ends: its session is left in Review. -/
def ended (key : Text) : List Action := [.ended key] ++ closed ++ [.resumed .stopping, .resumed .hidingCompanion]

/-- A second meeting is accepted while the first one's session is in Review. -/
def second : List Action :=
  accepted ['a'] ++ ended ['a'] ++
    [.detected ['b'], .resumed .prompting, .acted ['b'] .start, .resumed .cancelling, .resumed .starting,
      .resumed .showing, .resumed .pushing]

/-- **The second meeting is tracked and not captured**, with nothing pending. -/
theorem tracked_in_review :
    ∃ m : Manager plain, run Manager.step (started true {}) second = some m ∧ m.handlers = [] ∧ Quiet m.listening ∧
      m.state = .tracking ∧ m.active = some ['b'] ∧ m.listening.state = .reviewing :=
  ⟨_, rfl, rfl, ⟨rfl, rfl, rfl, rfl, rfl⟩, rfl, rfl, rfl⟩

/-! ### Coherence -/

/-- **The state is coherent** with the meetings and with the tick. -/
structure Coherent (m : Manager R) : Prop where
  notRunning : m.state = .notRunning ↔ m.awaiting = none ∧ m.active = none
  awaitingDecision : m.state = .awaitingDecision ↔ m.awaiting.isSome
  tracking : m.state = .tracking ↔ m.active.isSome
  finalizing : m.state ≠ .finalizing
  tick : m.companionTick.live ≠ [] → m.state = .tracking

/-- **What goes on was not overtaken**: a `_finalize` that ends finds no meeting awaited and no tick running, so none
was taken up since it began; a `_startTracking` that sets the tick finds a meeting tracked and no tick running, so
its own was not finalized since. -/
def Current (m : Manager R) : Action → Prop
  | .resumed .hidingCompanion => m.awaiting = none ∧ m.companionTick.live = []
  | .resumed .pushing => m.state = .tracking ∧ m.companionTick.live = []
  | _ => True

instance (m : Manager R) : DecidablePred (Current m) := fun a => by
  unfold Current
  split <;> infer_instance

/-- The invariant. -/
structure Inv (m : Manager R) : Prop where
  awaits : m.state = .awaitingDecision ↔ m.awaiting.isSome
  active : m.state = .tracking → m.active.isSome
  tracked : m.active.isSome → m.state = .tracking ∨ Finalizing m.handlers
  finalizes : m.state = .finalizing → Finalizing m.handlers
  tick : m.companionTick.Off ∨ (m.state = .tracking ∧ m.companionTick.One)

theorem Inv.off (h : Inv m) (hs : m.state ≠ .tracking) : m.companionTick.Off :=
  h.tick.resolve_right fun ht => hs ht.1

/-- A `_startTracking` begins. -/
theorem inv_startTracking {key : Text} (h : Inv m) : Inv (m.startTracking key) where
  awaits := by simp [Manager.startTracking, Manager.suspend]
  active := by simp [Manager.startTracking, Manager.suspend]
  tracked _ := Or.inl rfl
  finalizes := by simp [Manager.startTracking, Manager.suspend]
  tick := h.tick.imp id fun ht => ⟨rfl, ht.2⟩

/-- What is kept when nothing but the controller, the settings and the handlers changes. -/
theorem Inv.frame (h : Inv m) (hstate : m'.state = m.state) (hawaiting : m'.awaiting = m.awaiting)
    (hactive : m'.active = m.active) (htick : m'.companionTick = m.companionTick)
    (hfinal : Finalizing m.handlers → Finalizing m'.handlers) : Inv m' where
  awaits := by rw [hstate, hawaiting]; exact h.awaits
  active := by rw [hstate, hactive]; exact h.active
  tracked := by rw [hstate, hactive]; exact fun hs => (h.tracked hs).imp id hfinal
  finalizes := by rw [hstate]; exact fun hs => hfinal (h.finalizes hs)
  tick := by rw [hstate, htick]; exact h.tick

theorem live_of_tick (h : Inv m) : m.companionTick.cancel.live = [] := by
  rcases h.tick with hoff | ⟨-, hone⟩
  · simp [Slot.cancel, hoff.2]
  · exact Slot.live_cancel hone

theorem inv_step (h : Inv m) (hcur : Current m a) (hs : m.step a = some m') : Inv m' := by
  cases moves_of_step hs with
  | keeps _ hfinal => exact h.frame rfl rfl rfl rfl hfinal.mpr
  | leaves _ hfinal => exact h.frame rfl rfl rfl rfl hfinal.mpr
  | starts hfinal => exact h.frame rfl rfl rfl rfl hfinal.mpr
  | notices => exact h.frame rfl rfl rfl rfl id
  | ticks hfinal =>
    obtain ⟨ht, hlive⟩ := hcur
    exact ⟨h.awaits, h.active, fun hs => (h.tracked hs).imp id hfinal.mpr, fun hs => hfinal.mpr (h.finalizes hs),
      Or.inr ⟨ht, Slot.one_take hlive⟩⟩
  | prompts hnew =>
    have hfinal : m.active.isSome → Finalizing m.handlers := fun ha =>
      (h.tracked ha).resolve_left hnew.2.2.2
    exact ⟨by simp, by simp, fun ha => Or.inr ((finalizing_cons (by simp) (by simp)).mpr (hfinal ha)), by simp,
      Or.inl (h.off hnew.2.2.2)⟩
  | tracks => exact inv_startTracking (h.frame rfl rfl rfl rfl id)
  | accepts => exact inv_startTracking h
  | dismisses hawaiting =>
    have hstate : m.state = .awaitingDecision := h.awaits.mpr (by simp [hawaiting])
    have hfinal : m.active.isSome → Finalizing m.handlers := fun ha =>
      (h.tracked ha).resolve_left (by simp [hstate])
    exact ⟨by simp, by simp, fun ha => Or.inr ((finalizing_cons (by simp) (by simp)).mpr (hfinal ha)), by simp,
      Or.inl (h.off (by simp [hstate]))⟩
  | finalizes hstate hfinal =>
    have hawaiting : m.awaiting.isSome = false := by
      rw [Bool.eq_false_iff]
      intro hsome
      have hdecision : m.state = .awaitingDecision := h.awaits.mpr hsome
      simp [hstate] at hdecision
    exact ⟨by simp [hawaiting], by simp, fun _ => Or.inr (Or.inl hfinal), fun _ => Or.inl hfinal,
      Or.inl (Slot.off_drop (live_of_tick h))⟩
  | finishes =>
    obtain ⟨hawaiting, hlive⟩ := hcur
    have hoff : m.companionTick.Off := h.tick.resolve_right fun ⟨_, n, _, hn⟩ => by simp [hlive] at hn
    exact ⟨by simp [Manager.finished, hawaiting], by simp [Manager.finished], by simp [Manager.finished],
      by simp [Manager.finished], Or.inl hoff⟩

theorem inv_started {companionOverlay : Bool} {settings : MeetingDetectionSettings} :
    Inv (started companionOverlay settings : Manager R) :=
  ⟨by simp [started], by simp [started], by simp [started], by simp [started], Or.inl ⟨rfl, rfl⟩⟩

/-- At rest the invariant is coherence. -/
theorem coherent_of_inv (h : Inv m) (hrest : m.handlers = []) : Coherent m := by
  have hnone : ¬ Finalizing m.handlers := by simp [Finalizing, hrest]
  have hfinalizing : m.state ≠ .finalizing := fun hs => hnone (h.finalizes hs)
  have htracking : m.state = .tracking ↔ m.active.isSome :=
    ⟨h.active, fun ha => (h.tracked ha).resolve_right hnone⟩
  refine ⟨⟨fun hs => ⟨?_, ?_⟩, fun hs => ?_⟩, h.awaits, htracking, hfinalizing, fun ht => ?_⟩
  · have hno : ¬ m.awaiting.isSome := fun hsome => by simp [h.awaits.mpr hsome] at hs
    simpa using hno
  · have hno : ¬ m.active.isSome := fun hsome => by simp [htracking.mpr hsome] at hs
    simpa using hno
  · cases hstate : m.state with
    | notRunning => rfl
    | awaitingDecision => simpa [hs.1] using h.awaits.mp hstate
    | tracking => simpa [hs.2] using htracking.mp hstate
    | finalizing => exact absurd hstate hfinalizing
  · by_contra hne
    exact ht (h.off hne).2

/-- **The state is coherent at rest**, in every run in which what goes on was not overtaken. -/
theorem coherent_at_rest {companionOverlay : Bool} {settings : MeetingDetectionSettings}
    (h : Reach Manager.step Current (started companionOverlay settings) m) (hrest : m.handlers = []) : Coherent m :=
  coherent_of_inv (h.inv inv_started fun _ _ _ => inv_step) hrest

/-- A meeting that is accepted and ends, and another that is accepted. -/
theorem two_coherent :
    ∃ m : Manager plain, run Manager.step (started true {}) second = some m ∧ Coherent m := by
  have h : ∃ m : Manager plain, run Manager.step (started true {}) second = some m ∧ m.handlers = [] :=
    ⟨_, rfl, rfl⟩
  obtain ⟨m, hrun, hrest⟩ := h
  exact ⟨m, hrun, coherent_at_rest (Reach.of_run (by decide) hrun) hrest⟩

/-- A meeting is detected while another one is finalized. -/
def overtaken : List Action :=
  accepted ['a'] ++ [.ended ['a'], .detected ['b'], .resumed .prompting] ++ closed ++
    [.resumed .stopping, .resumed .hidingCompanion]

/-- **The state says that nothing runs while a meeting awaits its decision.** -/
theorem forgotten_prompt :
    ∃ m : Manager plain, run Manager.step (started true {}) overtaken = some m ∧ m.handlers = [] ∧
      m.state = .notRunning ∧ m.awaiting = some ['b'] ∧ ¬ Coherent m := by
  refine ⟨_, rfl, rfl, rfl, rfl, fun h => ?_⟩
  exact absurd (h.notRunning.mp rfl).1 (by decide)

end Notely.Desktop.MeetingCoherence
