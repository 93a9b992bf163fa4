import Notely.Desktop.Capture
import Notely.Lib.Lts
import Notely.Lib.Timelines

/-! # How long a session has been listening

The clock of `ListeningController` in `features/listening/listening_state.dart`: the time of the spans that are over,
and the start of the one that runs. Only the part of an operation before its first await changes them; what comes
after it is in `Desktop/Capture`. Times are in microseconds.

* `elapsed_step`: a call changes what has elapsed only if it starts a session or ends one.
* `state_of_run`: the controller with its devices is in the states of the clock.
* `elapsed_measured`: what has elapsed is the time spent listening since the session was started. -/

namespace Notely.Desktop.ElapsedTime

open Notely.Lib.Lts Notely.Lib.Timelines
open Notely.Desktop.Capture (Controller Recorder)
open Notely.Desktop.Listening (ListeningState)

/-! ### The clock -/

/-- `ListeningController`, of which only the state and the clock. -/
structure Clock where
  state : ListeningState := .idle
  accumulated : ℤ := 0
  runningSince : Option ℤ := none
  deriving DecidableEq

inductive Call
  | start
  | pause
  | resume
  | stop
  | close
  /-- A `summarise` ends the session. -/
  | summarised
  deriving DecidableEq

namespace Clock

variable (c : Clock) (now : ℤ)

/-- `elapsed`. -/
def elapsed : ℤ :=
  let running := match c.runningSince with
    | none => 0
    | some since => now - since
  c.accumulated + running

/-- `_foldRunningSpan`. -/
def foldRunningSpan : Clock :=
  match c.runningSince with
  | none => c
  | some since => { c with accumulated := c.accumulated + (now - since), runningSince := none }

/-- `start`. -/
def start : Clock := if c.state ≠ .idle then c else { state := .listening, accumulated := 0, runningSince := some now }

/-- `pause`. -/
def pause : Clock := if c.state ≠ .listening then c else { c.foldRunningSpan now with state := .paused }

/-- `resume`. -/
def resume : Clock := if c.state ≠ .paused then c else { c with runningSince := some now, state := .listening }

/-- `stop`. -/
def stop : Clock :=
  if c.state = .idle ∨ c.state = .reviewing then c else { c.foldRunningSpan now with state := .reviewing }

/-- `_endSession`. -/
def endSession : Clock := { state := .idle, accumulated := 0, runningSince := none }

/-- `close`. -/
def close : Clock := if c.state = .idle then c else endSession

def step : Call → Clock
  | .start => c.start now
  | .pause => c.pause now
  | .resume => c.resume now
  | .stop => c.stop now
  | .close => c.close
  | .summarised => endSession

end Clock

/-! ### What is asked -/

/-- The readings at which the calls start a session, of the clock `c`. -/
def starts (c : Clock) : List (ℤ × Call) → List ℤ
  | [] => []
  | (t, call) :: calls =>
    if call = .start ∧ c.state = .idle then t :: starts (c.step t call) calls else starts (c.step t call) calls

/-- The clock after calls, from when the app was started. -/
def clockAfter (calls : List (ℤ × Call)) : Clock := after Clock.step {} calls

/-- The controller is listening at a time. -/
def ListeningAt (calls : List (ℤ × Call)) (u : ℤ) : Prop := (stateAt Clock.step {} calls u).state = .listening

instance (calls : List (ℤ × Call)) : DecidablePred (ListeningAt calls) := fun _ => inferInstanceAs (Decidable (_ = _))

/-- **What has elapsed is the time spent listening since the last start of a session, and nothing when idle.** -/
structure Measured (calls : List (ℤ × Call)) (now : ℤ) : Prop where
  idle : (clockAfter calls).state = .idle → (clockAfter calls).elapsed now = 0
  session : (clockAfter calls).state ≠ .idle → ∃ start, (starts {} calls).getLast? = some start ∧
    (clockAfter calls).elapsed now = timeIn (ListeningAt calls) start now

/-! ### One call -/

/-- The clock runs while the controller listens, and is at zero while it is idle. -/
structure Coherent (c : Clock) : Prop where
  running : c.runningSince.isSome ↔ c.state = .listening
  zero : c.state = .idle → c.accumulated = 0

section Step
variable {c : Clock} {t now : ℤ} {call : Call}

theorem coherent_fold (s : ListeningState) (hs : s ≠ .listening) (hidle : s ≠ .idle) :
    Coherent { c.foldRunningSpan now with state := s } := by
  have hstopped : (c.foldRunningSpan now).runningSince = none := by
    unfold Clock.foldRunningSpan
    cases h : c.runningSince with
    | none => exact h
    | some since => rfl
  exact ⟨by simp [hstopped, hs], fun h => absurd h hidle⟩

theorem coherent_endSession : Coherent Clock.endSession := ⟨by simp [Clock.endSession], fun _ => rfl⟩

theorem coherent_step (hc : Coherent c) (t : ℤ) (call : Call) : Coherent (c.step t call) := by
  cases call with
  | start =>
    show Coherent (c.start t)
    unfold Clock.start
    split_ifs
    · exact hc
    · exact ⟨by simp, fun h => by cases h⟩
  | pause =>
    show Coherent (c.pause t)
    unfold Clock.pause
    split_ifs
    · exact hc
    · exact coherent_fold _ (by simp) (by simp)
  | resume =>
    show Coherent (c.resume t)
    unfold Clock.resume
    split_ifs
    · exact hc
    · exact ⟨by simp, fun h => by cases h⟩
  | stop =>
    show Coherent (c.stop t)
    unfold Clock.stop
    split_ifs
    · exact hc
    · exact coherent_fold _ (by simp) (by simp)
  | close =>
    show Coherent c.close
    unfold Clock.close
    split_ifs
    · exact hc
    · exact coherent_endSession
  | summarised => exact coherent_endSession

/-- What elapses from one reading to the next. -/
theorem elapsed_later (hc : Coherent c) (t now : ℤ) :
    c.elapsed now = c.elapsed t + if c.state = .listening then now - t else 0 := by
  unfold Clock.elapsed
  cases h : c.runningSince with
  | none =>
    have hnot : ¬ c.state = .listening := fun hl => by simpa [h] using hc.running.mpr hl
    simp [hnot]
  | some since =>
    have hl : c.state = .listening := hc.running.mp (by simp [h])
    simp only [hl, if_pos]
    omega

theorem elapsed_idle (hc : Coherent c) (h : c.state = .idle) (now : ℤ) : c.elapsed now = 0 := by
  have hnone : c.runningSince = none := by
    rw [← Option.not_isSome_iff_eq_none, hc.running, h]
    simp
  simp [Clock.elapsed, hnone, hc.zero h]

theorem elapsed_fold (s : ListeningState) : Clock.elapsed { c.foldRunningSpan t with state := s } t = c.elapsed t := by
  unfold Clock.foldRunningSpan Clock.elapsed
  cases h : c.runningSince with
  | none => simp [h]
  | some since => simp

/-- **A call in a session that does not end it leaves what has elapsed.** -/
theorem elapsed_step (hc : Coherent c) (hsession : c.state ≠ .idle) (hgoes : (c.step t call).state ≠ .idle) :
    (c.step t call).elapsed t = c.elapsed t := by
  cases call with
  | start =>
    show (c.start t).elapsed t = _
    rw [Clock.start, if_pos hsession]
  | pause =>
    show (c.pause t).elapsed t = _
    unfold Clock.pause
    split_ifs
    · rfl
    · exact elapsed_fold .paused
  | resume =>
    show (c.resume t).elapsed t = _
    unfold Clock.resume
    split_ifs with hpaused
    · rfl
    · have hnone : c.runningSince = none := by
        rw [← Option.not_isSome_iff_eq_none, hc.running, not_not.mp hpaused]
        simp
      simp [Clock.elapsed, hnone]
  | stop =>
    show (c.stop t).elapsed t = _
    unfold Clock.stop
    split_ifs
    · rfl
    · exact elapsed_fold .reviewing
  | close =>
    refine absurd ?_ hgoes
    show c.close.state = .idle
    rw [Clock.close, if_neg hsession]
    rfl
  | summarised => exact absurd rfl hgoes

/-- A session begins with a `start`, and with no time. -/
theorem start_of_idle (hidle : c.state = .idle) (hgoes : (c.step t call).state ≠ .idle) :
    call = .start ∧ (c.step t call).elapsed t = 0 := by
  cases call with
  | start =>
    refine ⟨rfl, ?_⟩
    show (c.start t).elapsed t = 0
    rw [Clock.start, if_neg (not_not.mpr hidle)]
    simp [Clock.elapsed]
  | pause => simp [Clock.step, Clock.pause, hidle] at hgoes
  | resume => simp [Clock.step, Clock.resume, hidle] at hgoes
  | stop => simp [Clock.step, Clock.stop, hidle] at hgoes
  | close => simp [Clock.step, Clock.close, hidle] at hgoes
  | summarised => exact absurd rfl hgoes

end Step

/-! ### The controller with its devices -/

/-- The call of the clock in an action of the controller. -/
def heard : Capture.Action → Option Call
  | .start => some .start
  | .pause => some .pause
  | .resume => some .resume
  | .stop => some .stop
  | .close => some .close
  | .summarised true => some .summarised
  | _ => none

/-- The calls of the clock, with their readings. -/
def heardCalls (as : List (ℤ × Capture.Action)) : List (ℤ × Call) := as.filterMap fun (t, a) => (heard a).map (t, ·)

section Controller
variable {R : Recorder} {c c' : Controller R} {k : Clock} {a : Capture.Action}

/-- What both do in one state only. -/
theorem state_guarded {s : ListeningState} {k' : Clock} {d : Controller R} (hk : k.state = c.state)
    (h : k'.state = d.state) : (if k.state ≠ s then k else k').state = (if c.state = s then d else c).state := by
  rw [hk]
  by_cases hs : c.state = s
  · rw [if_neg (not_not.mpr hs), if_pos hs, h]
  · rw [if_pos hs, if_neg hs, hk]

theorem state_of_step (hk : k.state = c.state) (h : c.step a = some c') (t : ℤ) :
    ((heard a).elim k (k.step t)).state = c'.state := by
  cases a with
  | start =>
    obtain rfl := Option.some.inj h
    exact state_guarded hk rfl
  | pause =>
    obtain rfl := Option.some.inj h
    exact state_guarded hk rfl
  | resume =>
    obtain rfl := Option.some.inj h
    exact state_guarded hk rfl
  | stop =>
    obtain rfl := Option.some.inj h
    show (k.stop t).state = c.stop.state
    unfold Clock.stop Controller.stop
    rw [hk]
    split_ifs
    · exact hk
    · rfl
  | close =>
    obtain rfl := Option.some.inj h
    show k.close.state = c.close.state
    unfold Clock.close Controller.close
    rw [hk]
    split_ifs
    · exact hk
    · rfl
  | summarise hasOpenNote =>
    obtain rfl := Option.some.inj h
    show k.state = (c.summarise hasOpenNote).state
    unfold Controller.summarise
    split_ifs <;> exact hk
  | summarised ends =>
    obtain ⟨-, rfl⟩ := Option.ite_some_none_eq_some.mp h
    cases ends with
    | true => rfl
    | false => exact hk
  | starting s reply =>
    obtain ⟨-, rfl⟩ := Option.ite_some_none_eq_some.mp h
    exact hk.trans (Controller.state_advanceStart s reply).symm
  | pausing s =>
    obtain ⟨-, rfl⟩ := Option.ite_some_none_eq_some.mp h
    cases s <;> exact hk
  | resuming s =>
    obtain ⟨-, rfl⟩ := Option.ite_some_none_eq_some.mp h
    cases s <;> exact hk
  | stopping s =>
    obtain ⟨-, rfl⟩ := Option.ite_some_none_eq_some.mp h
    exact hk.trans (Controller.state_advanceStop s).symm
  | exhausted => exact hk.trans (Option.some.inj h ▸ rfl)
  | touched => exact hk.trans (Option.some.inj h ▸ rfl)

/-- **The controller is in the state of the clock**, whatever its devices and its listeners do in between. -/
theorem state_of_run {as : List (ℤ × Capture.Action)} (hk : k.state = c.state)
    (h : run Controller.step c (as.map Prod.snd) = some c') :
    (after Clock.step k (heardCalls as)).state = c'.state := by
  induction as generalizing c k with
  | nil =>
    obtain rfl := Option.some.inj h
    exact hk
  | cons d as ih =>
    obtain ⟨t, a⟩ := d
    obtain ⟨c1, h1, h2⟩ := Option.bind_eq_some_iff.mp h
    have hrest := ih (state_of_step hk h1 t) h2
    cases ha : heard a with
    | none =>
      rw [ha] at hrest
      simpa [heardCalls, ha] using hrest
    | some call =>
      have hcons : heardCalls ((t, a) :: as) = (t, call) :: heardCalls as := by simp [heardCalls, ha]
      rw [ha] at hrest
      rw [hcons]
      exact hrest

end Controller

/-! ### Any calls -/

section Run
variable {c : Clock} {calls : List (ℤ × Call)} {t now : ℤ} {call : Call}

theorem starts_concat : starts c (calls ++ [(t, call)]) =
    starts c calls ++ if call = .start ∧ (after Clock.step c calls).state = .idle then [t] else [] := by
  induction calls generalizing c with
  | nil => rfl
  | cons d calls ih =>
    obtain ⟨u, d⟩ := d
    have hafter : after Clock.step c ((u, d) :: calls) = after Clock.step (c.step u d) calls := rfl
    rw [List.cons_append, starts, starts, ih, hafter]
    by_cases hstart : d = .start ∧ c.state = .idle
    · rw [if_pos hstart, if_pos hstart, List.cons_append]
    · rw [if_neg hstart, if_neg hstart]

/-- A session is started at the reading of a call. -/
theorem mem_starts (h : t ∈ starts c calls) : ∃ d ∈ calls, d.1 = t := by
  induction calls generalizing c with
  | nil => cases h
  | cons d calls ih =>
    obtain ⟨u, d⟩ := d
    have hrest : ∀ c', t ∈ starts c' calls → ∃ e ∈ (u, d) :: calls, e.1 = t := by
      intro c' h
      obtain ⟨e, he, heq⟩ := ih h
      exact ⟨e, List.mem_cons_of_mem _ he, heq⟩
    rw [starts] at h
    split_ifs at h
    · rcases List.mem_cons.mp h with rfl | h
      · exact ⟨_, List.mem_cons_self, rfl⟩
      · exact hrest _ h
    · exact hrest _ h

theorem coherent_clockAfter (calls : List (ℤ × Call)) : Coherent (clockAfter calls) := by
  induction calls using List.reverseRecOn with
  | nil => exact ⟨by decide, fun _ => rfl⟩
  | append_singleton calls d ih =>
    rw [clockAfter, after_concat]
    exact coherent_step ih _ _

/-- **What has elapsed is the time spent listening since the last start**, at any reading after the calls. -/
theorem elapsed_measured (calls : List (ℤ × Call)) (now : ℤ) (hordered : Ordered calls)
    (hnow : ∀ d ∈ calls, d.1 ≤ now) :
    Measured calls now := by
  refine ⟨fun h => elapsed_idle (coherent_clockAfter calls) h now, ?_⟩
  induction calls using List.reverseRecOn generalizing now with
  | nil => exact fun h => absurd rfl h
  | append_singleton calls d ih =>
    intro hgoes
    obtain ⟨t, call⟩ := d
    obtain ⟨hordered, hlast⟩ := ordered_concat.mp hordered
    have htnow : t ≤ now := hnow (t, call) (by simp)
    have hcoherent := coherent_clockAfter calls
    have hafter : clockAfter (calls ++ [(t, call)]) = (clockAfter calls).step t call := after_concat _
    have hlater := elapsed_later (coherent_clockAfter (calls ++ [(t, call)])) t now
    rw [hlater, starts_concat]
    rw [hafter] at hgoes ⊢
    by_cases hidle : (clockAfter calls).state = .idle
    · obtain ⟨rfl, hzero⟩ := start_of_idle hidle hgoes
      refine ⟨t, by simp [show (after Clock.step {} calls).state = .idle from hidle], ?_⟩
      have hsince : (timeIn (ListeningAt (calls ++ [(t, .start)])) t now : ℤ) =
          if (clockAfter (calls ++ [(t, .start)])).state = .listening then now - t else 0 :=
        timeIn_since (fun c : Clock => c.state = .listening) (le_of_concat hlast) htnow
      rw [hzero, Int.zero_add, hsince, hafter]
    · obtain ⟨start, hstart, helapsed⟩ := ih t hordered hlast hidle
      have hle : start ≤ t := by
        obtain ⟨d, hd, rfl⟩ := mem_starts (List.mem_of_getLast? hstart)
        exact hlast d hd
      refine ⟨start, by simp [show ¬ (after Clock.step {} calls).state = .idle from hidle, hstart], ?_⟩
      have hspent : (timeIn (ListeningAt (calls ++ [(t, call)])) start now : ℤ) =
          timeIn (ListeningAt calls) start t +
            if (clockAfter (calls ++ [(t, call)])).state = .listening then now - t else 0 :=
        timeIn_concat (fun c : Clock => c.state = .listening) hlast hle htnow
      rw [elapsed_step hcoherent hidle hgoes, helapsed, hspent, hafter]

end Run

/-- Two spans, of three microseconds and of one. -/
theorem measured_twice : Measured [(0, .start), (3, .pause), (4, .start), (5, .resume), (6, .stop)] 9 :=
  elapsed_measured _ _ (by simp [Ordered]) (by simp)

end Notely.Desktop.ElapsedTime
