import Notely.Desktop.Capture
import Notely.Lib.Lts

/-! # The microphone is off outside a session, unless operations overtake each other

A `stop` that lands inside the await of a `start` finds no recording to stop, and the `start` opens the microphone
afterwards, in Review: `recorded_in_review` is such a run. The operations keep to themselves (`Orderly`) if none
begins that undoes what is still being done: no `stop` while a `start` is pending, no `start` while a `stop` is, no
pause that reaches the recorder once the session listens again, no summary that ends a session it was not made
for. `microphone_off`: then the devices and the state agree whenever nothing is pending.

The invariant `Inv` says where the devices are while a `start` (`Opening`) or a `stop` (`Closing`) is pending, and
that a session that listens captures, or will once the `start` or a `resume` goes on. -/

namespace Notely.Desktop.CaptureSafety

open Notely.Lib.Handles Notely.Lib.Lts
open Notely.Desktop.Listening (ListeningState)
open Notely.Desktop.Capture Notely.Desktop.Capture.Controller

variable {R : Recorder} {c c' : Controller R}

/-! ### What is asked for -/

/-- Nothing is pending. -/
def Quiet (c : Controller R) : Prop :=
  c.starting = [] ∧ c.pausing = [] ∧ c.resuming = [] ∧ c.stopping = [] ∧ c.summarising = 0

/-- The capture and the transcript are stopped, no subscription is live. -/
def Silent (c : Controller R) : Prop :=
  R.isRecording c.recorder = false ∧ c.micSub.live = [] ∧ c.transcript.running = false ∧ c.sub.live = []

/-- The recorder runs, and its stream is listened to. -/
def Capturing (c : Controller R) : Prop :=
  R.isRecording c.recorder = true ∧ R.isPaused c.recorder = false ∧ c.micSub.live.length = 1

/-- There is no session that listens or pauses. -/
def Resting (s : ListeningState) : Prop := s = .idle ∨ s = .reviewing

/-- **The state and the devices agree.** -/
def Agrees (c : Controller R) : Prop :=
  (Resting c.state → Silent c) ∧ (c.state = .listening → Capturing c ∧ c.sub.live.length = 1)

/-- A `start` has yet to open the microphone. -/
def ToOpen (c : Controller R) : Prop := .probing ∈ c.starting ∨ .asking ∈ c.starting

/-- A `resume` has yet to reach the recorder. -/
def ToResume (c : Controller R) : Prop := .asked true ∈ c.resuming

/-- **The operations keep to themselves**: a `start` begins while no `stop` is pending, and a `stop` while no `start`
is; the microphone is granted, at the second request at least, and its stream opens; a `pause` does not reach the
recorder of a session that listens, unless its `start` or a `resume` has yet to; a `summarise` does not end a session
that listens or pauses; `close` is chosen in Review, where it is offered. -/
def Orderly (c : Controller R) : Action → Prop
  | .start => c.state = .idle → c.stopping = []
  | .stop => ¬ Resting c.state → c.starting = []
  | .starting .probing reply => reply.microphone = .available → reply.opens = true
  | .starting .asking reply => reply.microphone = .available ∧ reply.opens = true
  | .pausing t => t = .asked true → c.state = .listening → ToOpen c ∨ ToResume c
  | .summarised ends => ends = true → Resting c.state
  | .close => c.state = .reviewing
  | _ => True

instance (s : ListeningState) : Decidable (Resting s) := inferInstanceAs (Decidable (_ ∨ _))

instance : Decidable (ToOpen c) := inferInstanceAs (Decidable (_ ∨ _))

instance : Decidable (ToResume c) := inferInstanceAs (Decidable (_ ∈ _))

instance (c : Controller R) : DecidablePred (Orderly c) := fun a => by
  unfold Orderly
  split <;> infer_instance

/-! ### The invariant -/

/-- The devices while a `start` is pending. -/
def Opening (c : Controller R) : Starting → Prop
  | .probing | .asking => R.isRecording c.recorder = false ∧ c.micSub.Off
  | .opening opens => opens = true ∧ R.isRecording c.recorder = true ∧ c.micSub.Off
  | .opened => R.isRecording c.recorder = true ∧ c.micSub.One

/-- The devices while a `stop` is pending. -/
def Closing (c : Controller R) : Stopping → Prop
  | .cancelling => c.micSub.live = [] ∧ c.sub.One
  | .askedRecording recording => (recording = false → R.isRecording c.recorder = false) ∧ c.micSub.Off ∧ c.sub.One
  | .askedPaused _ | .halting => R.isRecording c.recorder = false ∧ c.micSub.Off ∧ c.sub.One
  | .unsubscribing => R.isRecording c.recorder = false ∧ c.micSub.Off ∧ c.sub.live = []

/-- A session: its `start` is pending, or it is under way. -/
def InSession (c : Controller R) : Prop :=
  c.stopping = [] ∧ c.sub.One ∧
    ((∃ t, c.starting = [t] ∧ Opening c t) ∨ (c.starting = [] ∧ R.isRecording c.recorder = true ∧ c.micSub.One))

/-- No session: its `stop` is pending, or all is off. -/
def OutOfSession (c : Controller R) : Prop :=
  c.starting = [] ∧ c.transcript.running = false ∧
    ((∃ t, c.stopping = [t] ∧ Closing c t) ∨
      (c.stopping = [] ∧ R.isRecording c.recorder = false ∧ c.micSub.Off ∧ c.sub.Off))

/-- The invariant. -/
structure Inv (c : Controller R) : Prop where
  inSession : ¬ Resting c.state → InSession c
  outOfSession : Resting c.state → OutOfSession c
  captures : c.state = .listening → R.isPaused c.recorder = false ∨ ToOpen c ∨ ToResume c

theorem Inv.notify (h : Inv c) : Inv c.notify := ⟨h.inSession, h.outOfSession, h.captures⟩

/-- What is kept when only the recorder pauses or resumes. -/
theorem Inv.frame (h : Inv c) (hstate : c'.state = c.state) (hstarting : c'.starting = c.starting)
    (hstopping : c'.stopping = c.stopping) (hrec : R.isRecording c'.recorder = R.isRecording c.recorder)
    (hmic : c'.micSub = c.micSub) (hsub : c'.sub = c.sub)
    (hrunning : c.transcript.running = false → c'.transcript.running = false)
    (hcaptures : c.state = .listening → R.isPaused c'.recorder = false ∨ ToOpen c' ∨ ToResume c') : Inv c' := by
  have hopening : ∀ t, Opening c t → Opening c' t := by
    intro t ht
    cases t <;> simpa only [Opening, hrec, hmic] using ht
  have hclosing : ∀ t, Closing c t → Closing c' t := by
    intro t ht
    cases t <;> simpa only [Closing, hrec, hmic, hsub] using ht
  refine ⟨fun hs => ?_, fun hs => ?_, fun hs => hcaptures (hstate ▸ hs)⟩
  · obtain ⟨hstop, hone, hstart⟩ := h.inSession (hstate ▸ hs)
    refine ⟨hstopping ▸ hstop, hsub ▸ hone, ?_⟩
    rcases hstart with ⟨t, ht, hdev⟩ | ⟨hnone, hon, hmicOne⟩
    · exact Or.inl ⟨t, hstarting ▸ ht, hopening t hdev⟩
    · exact Or.inr ⟨hstarting ▸ hnone, hrec ▸ hon, hmic ▸ hmicOne⟩
  · obtain ⟨hnone, hoff, hstop⟩ := h.outOfSession (hstate ▸ hs)
    refine ⟨hstarting ▸ hnone, hrunning hoff, ?_⟩
    rcases hstop with ⟨t, ht, hdev⟩ | ⟨hnil, hrecOff, hmicOff, hsubOff⟩
    · exact Or.inl ⟨t, hstopping ▸ ht, hclosing t hdev⟩
    · exact Or.inr ⟨hstopping ▸ hnil, hrec ▸ hrecOff, hmic ▸ hmicOff, hsub ▸ hsubOff⟩

/-! ### One step -/

theorem inv_start (h : Inv c) (ho : Orderly c .start) : Inv c.start := by
  unfold Controller.start
  split_ifs with hidle
  · obtain ⟨hnone, -, hstop⟩ := h.outOfSession (Or.inl hidle)
    rcases hstop with ⟨t, ht, -⟩ | ⟨hnil, hrec, hmic, hsub⟩
    · exact absurd (ho hidle) (by simp [ht])
    · refine Inv.notify ⟨fun _ => ⟨hnil, Slot.one_take hsub.2, Or.inl ⟨.probing, by simp [hnone], hrec, hmic⟩⟩, ?_, ?_⟩
      · simp [Resting]
      · exact fun _ => Or.inr (Or.inl (Or.inl (by simp)))
  · exact h

theorem inv_pause (h : Inv c) : Inv c.pause := by
  unfold Controller.pause
  split_ifs with hl
  · have hsession : InSession c := h.inSession (by simp [Resting, hl])
    exact Inv.notify ⟨fun _ => hsession, by simp [Resting], by simp⟩
  · exact h

theorem inv_resume (h : Inv c) : Inv c.resume := by
  unfold Controller.resume
  split_ifs with hp
  · have hsession : InSession c := h.inSession (by simp [Resting, hp])
    refine Inv.notify ⟨fun _ => hsession, by simp [Resting], fun _ => ?_⟩
    cases hpaused : R.isPaused c.recorder with
    | true => exact Or.inr (Or.inr (by simp [ToResume]))
    | false => exact Or.inl rfl
  · exact h

theorem inv_stop (h : Inv c) (ho : Orderly c .stop) : Inv c.stop := by
  unfold Controller.stop
  split_ifs with hr
  · exact h
  · obtain ⟨hstop, hone, hstart⟩ := h.inSession hr
    have hnone : c.starting = [] := ho hr
    rcases hstart with ⟨t, ht, -⟩ | ⟨-, -, hmic⟩
    · exact absurd hnone (by simp [ht])
    · refine Inv.notify ⟨by simp [Resting], fun _ => ⟨hnone, rfl, Or.inl ⟨.cancelling, by simp [hstop], ?_, hone⟩⟩,
        by simp⟩
      exact Slot.live_cancel hmic

theorem inv_endSession (h : Inv c) (hr : Resting c.state) : Inv c.endSession :=
  Inv.notify ⟨by simp [Resting], fun _ => h.outOfSession hr, by simp⟩

/-- A permission request is answered: the stream is asked for, or the permission once more. -/
theorem inv_answered {again : Bool} {reply : Reply} {t : Starting} (h : Inv c) (ht : c.starting = [t])
    (hdev : R.isRecording c.recorder = false ∧ c.micSub.Off) (hs : ¬ Resting c.state)
    (hgrant : again = false → reply.microphone = .available)
    (hopens : reply.microphone = .available → reply.opens = true) :
    Inv (answered { c with starting := c.starting.erase t } again reply) := by
  obtain ⟨hstop, hone, -⟩ := h.inSession hs
  obtain ⟨hrec, hmic⟩ := hdev
  by_cases hgranted : reply.microphone = .available
  · have hopen : reply.opens = true := hopens hgranted
    rw [answered, if_pos hgranted, if_pos hopen, hopen]
    exact ⟨fun _ => ⟨hstop, hone, Or.inl ⟨.opening true, by simp [ht], rfl, R.isRecording_startStream _, hmic⟩⟩,
      fun hr => absurd hr hs, fun _ => Or.inl (R.isPaused_startStream _)⟩
  · cases again with
    | true =>
      rw [answered, if_neg hgranted, if_pos rfl]
      exact ⟨fun _ => ⟨hstop, hone, Or.inl ⟨.asking, by simp [ht], hrec, hmic⟩⟩, fun hr => absurd hr hs,
        fun _ => Or.inr (Or.inl (Or.inr (by simp)))⟩
    | false => exact absurd (hgrant rfl) hgranted

theorem inv_advanceStart {t : Starting} {reply : Reply} (h : Inv c) (hmem : t ∈ c.starting)
    (ho : Orderly c (.starting t reply)) : Inv (c.advanceStart t reply) := by
  have hs : ¬ Resting c.state := by
    intro hr
    simp [(h.outOfSession hr).1] at hmem
  obtain ⟨hstop, hone, hstart⟩ := h.inSession hs
  rcases hstart with ⟨t', ht, hdev⟩ | ⟨hnone, -⟩
  · obtain rfl : t = t' := by simpa [ht] using hmem
    unfold advanceStart
    cases t with
    | probing => exact inv_answered h ht hdev hs (by simp) ho
    | asking => exact inv_answered h ht hdev hs (fun _ => ho.1) fun _ => ho.2
    | opening opens =>
      obtain ⟨rfl, hrec, hmic⟩ := hdev
      refine ⟨fun _ => ⟨hstop, hone, Or.inl ⟨.opened, by simp [ht], hrec, Slot.one_take hmic.2⟩⟩,
        fun hr => absurd hr hs, fun hl => ?_⟩
      have hcaptures := h.captures hl
      simpa [ToOpen, ToResume, ht] using hcaptures
    | opened =>
      obtain ⟨hrec, hmic⟩ := hdev
      refine Inv.notify ⟨fun _ => ⟨hstop, hone, Or.inr ⟨by simp [ht], hrec, hmic⟩⟩, fun hr => absurd hr hs,
        fun hl => ?_⟩
      have hcaptures := h.captures hl
      simpa [ToOpen, ToResume, ht] using hcaptures
  · simp [hnone] at hmem

theorem inv_advancePause {t : Pausing} (h : Inv c) (ho : Orderly c (.pausing t)) : Inv (c.advancePause t) := by
  unfold advancePause
  cases t with
  | asked recording =>
    cases recording with
    | true => exact h.frame rfl rfl rfl (R.isRecording_pause _) rfl rfl id fun hl => Or.inr (ho rfl hl)
    | false => exact h.frame rfl rfl rfl rfl rfl rfl id h.captures
  | sent => exact h.frame rfl rfl rfl rfl rfl rfl id h.captures

theorem inv_advanceResume {t : Resuming} (h : Inv c) : Inv (c.advanceResume t) := by
  have hkept : t ≠ .asked true → ToResume c → .asked true ∈ c.resuming.erase t := fun hne hmem =>
    (List.mem_erase_of_ne hne.symm).mpr hmem
  unfold advanceResume
  cases t with
  | asked paused =>
    cases paused with
    | true => exact h.frame rfl rfl rfl (R.isRecording_resume _) rfl rfl id fun _ => Or.inl (R.isPaused_resume _)
    | false =>
      refine h.frame rfl rfl rfl rfl rfl rfl id fun hl => (h.captures hl).imp_right (Or.imp_right fun hmem => ?_)
      exact List.mem_cons_of_mem _ (hkept (by simp) hmem)
  | sent =>
    exact h.frame rfl rfl rfl rfl rfl rfl id fun hl =>
      (h.captures hl).imp_right (Or.imp_right fun hmem => hkept (by simp) hmem)

theorem inv_advanceStop {t : Stopping} (h : Inv c) (hmem : t ∈ c.stopping) : Inv (c.advanceStop t) := by
  have hr : Resting c.state := by
    by_contra hs
    simp [(h.inSession hs).1] at hmem
  have hnl : c.state ≠ .listening := by
    rcases hr with hr | hr <;> simp [hr]
  obtain ⟨hnone, hoff, hstop⟩ := h.outOfSession hr
  rcases hstop with ⟨t', ht, hdev⟩ | ⟨hnil, -⟩
  · obtain rfl : t = t' := by simpa [ht] using hmem
    have hout : OutOfSession (c.advanceStop t) := by
      unfold advanceStop
      cases t with
      | cancelling =>
        refine ⟨hnone, hoff, Or.inl ⟨.askedRecording (R.isRecording c.recorder), by simp [ht], ?_⟩⟩
        exact ⟨id, Slot.off_drop hdev.1, hdev.2⟩
      | askedRecording recording =>
        cases recording with
        | true =>
          exact ⟨hnone, hoff, Or.inl ⟨.halting, by simp [halt, ht], R.isRecording_stop _, hdev.2.1, hdev.2.2⟩⟩
        | false =>
          refine ⟨hnone, hoff, Or.inl ⟨.askedPaused (R.isPaused c.recorder), by simp [ht], ?_⟩⟩
          exact ⟨hdev.1 rfl, hdev.2.1, hdev.2.2⟩
      | askedPaused paused =>
        cases paused with
        | true =>
          exact ⟨hnone, hoff, Or.inl ⟨.halting, by simp [halt, ht], R.isRecording_stop _, hdev.2.1, hdev.2.2⟩⟩
        | false =>
          refine ⟨hnone, hoff, Or.inl ⟨.unsubscribing, by simp [unsubscribe, ht], hdev.1, hdev.2.1, ?_⟩⟩
          exact Slot.live_cancel hdev.2.2
      | halting =>
        refine ⟨hnone, hoff, Or.inl ⟨.unsubscribing, by simp [unsubscribe, ht], hdev.1, hdev.2.1, ?_⟩⟩
        exact Slot.live_cancel hdev.2.2
      | unsubscribing =>
        exact ⟨hnone, hoff, Or.inr ⟨by simp [ht], hdev.1, hdev.2.1, Slot.off_drop hdev.2.2⟩⟩
    have hstate : (c.advanceStop t).state = c.state := by
      unfold advanceStop
      rcases t with _ | (_ | _) | (_ | _) | _ | _ <;> rfl
    exact ⟨fun hs => absurd (hstate ▸ hr) hs, fun _ => hout, fun hl => absurd (hstate ▸ hl) hnl⟩
  · simp [hnil] at hmem

theorem inv_summarise {hasOpenNote : Bool} (h : Inv c) : Inv (c.summarise hasOpenNote) := by
  unfold summarise
  split_ifs
  · exact Inv.notify (h.frame rfl rfl rfl rfl rfl rfl id h.captures)
  · exact h

theorem inv_advanceSummarise {ends : Bool} (h : Inv c) (ho : Orderly c (.summarised ends)) :
    Inv (c.advanceSummarise ends) := by
  have hdone : Inv { c with summarising := c.summarising - 1 } := h.frame rfl rfl rfl rfl rfl rfl id h.captures
  unfold advanceSummarise
  cases ends with
  | true => exact inv_endSession hdone (ho rfl)
  | false => exact hdone.notify

/-- **A step that keeps to itself keeps the invariant.** -/
theorem inv_step {a : Action} (h : Inv c) (ho : Orderly c a) (hs : c.step a = some c') : Inv c' := by
  cases a with
  | start => exact Option.some.inj hs ▸ inv_start h ho
  | pause => exact Option.some.inj hs ▸ inv_pause h
  | resume => exact Option.some.inj hs ▸ inv_resume h
  | stop => exact Option.some.inj hs ▸ inv_stop h ho
  | summarise hasOpenNote => exact Option.some.inj hs ▸ inv_summarise h
  | close =>
    obtain rfl := Option.some.inj hs
    have hreview : c.state = .reviewing := ho
    rw [Controller.close, if_neg (by simp [hreview])]
    exact inv_endSession h (Or.inr hreview)
  | starting t reply =>
    obtain ⟨hmem, rfl⟩ := Option.ite_some_none_eq_some.mp hs
    exact inv_advanceStart h hmem ho
  | pausing t =>
    obtain ⟨-, rfl⟩ := Option.ite_some_none_eq_some.mp hs
    exact inv_advancePause h ho
  | resuming t =>
    obtain ⟨-, rfl⟩ := Option.ite_some_none_eq_some.mp hs
    exact inv_advanceResume h
  | stopping t =>
    obtain ⟨hmem, rfl⟩ := Option.ite_some_none_eq_some.mp hs
    exact inv_advanceStop h hmem
  | summarised ends =>
    obtain ⟨-, rfl⟩ := Option.ite_some_none_eq_some.mp hs
    exact inv_advanceSummarise h ho
  | exhausted => exact Option.some.inj hs ▸ h.frame rfl rfl rfl rfl rfl rfl (fun _ => rfl) h.captures
  | touched => exact Option.some.inj hs ▸ h.notify

theorem inv_init : Inv ({} : Controller R) :=
  ⟨by simp [Resting], fun _ => ⟨rfl, rfl, Or.inr ⟨rfl, R.isRecording_initial, ⟨rfl, rfl⟩, ⟨rfl, rfl⟩⟩⟩, by simp⟩

/-! ### Runs -/

/-- With nothing pending the invariant is what is asked for. -/
theorem agrees_of_inv (h : Inv c) (hq : Quiet c) : Agrees c := by
  obtain ⟨hstart, -, hresume, hstop, -⟩ := hq
  refine ⟨fun hr => ?_, fun hl => ?_⟩
  · obtain ⟨-, hoff, ⟨t, ht, -⟩ | ⟨-, hrec, hmic, hsub⟩⟩ := h.outOfSession hr
    · simp [hstop] at ht
    · exact ⟨hrec, hmic.2, hoff, hsub.2⟩
  · obtain ⟨-, ⟨n, -, hsub⟩, ⟨t, ht, -⟩ | ⟨-, hrec, m, -, hmic⟩⟩ := h.inSession (by simp [Resting, hl])
    · simp [hstart] at ht
    · have hrunning : R.isPaused c.recorder = false := by
        simpa [ToOpen, ToResume, hstart, hresume] using h.captures hl
      exact ⟨⟨hrec, hrunning, by simp [hmic]⟩, by simp [hsub]⟩

/-- **The microphone is off outside a session**, and on in one that listens, in every run whose operations keep to
themselves, whenever nothing is pending. -/
theorem microphone_off (h : Reach step Orderly ({} : Controller R) c) (hq : Quiet c) : Agrees c :=
  agrees_of_inv (h.inv inv_init fun _ _ _ hi ho hs => inv_step hi ho hs) hq

/-- A recorder that does what is documented. -/
def plain : Recorder where
  State := Option Bool
  initial := none
  isRecording s := s.isSome
  isPaused s := s == some true
  startStream _ := some false
  pause s := s.map fun _ => true
  resume s := s.map fun _ => false
  stop _ := none
  isRecording_initial := rfl
  isRecording_startStream _ := rfl
  isPaused_startStream _ := rfl
  isRecording_pause s := by simp
  isPaused_pause s := by cases s <;> simp
  isRecording_resume s := by simp
  isPaused_resume s := by cases s <;> simp
  isRecording_stop _ := rfl
  isRecording_of_isPaused s := by cases s <;> simp

/-- A session that is paused, resumed and stopped. -/
def session : List Action :=
  [.start, .starting .probing {}, .starting (.opening true) {}, .starting .opened {}, .pause, .pausing (.asked true),
    .pausing .sent, .resume, .resuming (.asked true), .resuming .sent, .stop, .stopping .cancelling,
    .stopping (.askedRecording true), .stopping .halting, .stopping .unsubscribing]

/-- After that session all is off. -/
theorem session_off : ∃ c : Controller plain, run step {} session = some c ∧ c.state = .reviewing ∧ Silent c := by
  have h : ∃ c : Controller plain, run step {} session = some c ∧ c.state = .reviewing ∧ Quiet c :=
    ⟨_, rfl, rfl, rfl, rfl, rfl, rfl, rfl⟩
  obtain ⟨c, hrun, hstate, hq⟩ := h
  have hagrees : Agrees c := microphone_off (Reach.of_run (by decide) hrun) hq
  exact ⟨c, hrun, hstate, hagrees.1 (Or.inr hstate)⟩

/-- A `stop` inside the await of the permission: the `start` goes on in Review. -/
def overtaken : List Action :=
  [.start, .stop, .stopping .cancelling, .stopping (.askedRecording false), .stopping (.askedPaused false),
    .stopping .unsubscribing, .starting .probing {}, .starting (.opening true) {}, .starting .opened {}]

/-- **The microphone records in Review**, with nothing pending. -/
theorem recorded_in_review : ∃ c : Controller plain,
    run step {} overtaken = some c ∧ Quiet c ∧ c.state = .reviewing ∧ plain.isRecording c.recorder = true ∧
      c.transcript.running = true ∧ ¬ Agrees c := by
  refine ⟨_, rfl, ⟨rfl, rfl, rfl, rfl, rfl⟩, rfl, rfl, rfl, fun h => ?_⟩
  exact absurd (h.1 (Or.inr rfl)).1 (by decide)

end Notely.Desktop.CaptureSafety
