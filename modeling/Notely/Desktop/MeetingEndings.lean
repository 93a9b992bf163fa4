import Notely.Desktop.MeetingPrompts

/-! # A meeting that ends before it is answered

The manager of `Desktop/MeetingSession` looks at the end of a meeting only where it tracks one. A meeting that ends
while the user is still asked about it leaves the question standing: the notification is not cancelled, and a click on
it starts a session for nothing (`started_after_end`). What saves a run is that the question is taken back by another
event before the click, a dismissal or a meeting detected since, and this is all that saves it (`not_started_iff`).

* `StartsTracking`: what is not to happen after the end.
* `Withdrawn`: what must happen before a click on Start. -/

namespace Notely.Desktop.MeetingEndings

open Notely.Lib.Strings Notely.Lib.Lts Notely.Desktop.MeetingSession Notely.Desktop.MeetingPrompts
open Notely.Desktop.Capture (Recorder)
open Notely.Desktop.CaptureSafety (plain)

variable {R : Recorder} {m m' : Manager R} {a : Action} {k key : Text} {as : List Action}

/-! ### What is asked for -/

/-- The meeting is tracked. -/
def Tracks (m : Manager R) (key : Text) : Prop := m.state = .tracking ∧ m.active = some key

instance (m : Manager R) (key : Text) : Decidable (Tracks m key) := inferInstanceAs (Decidable (_ ∧ _))

/-- **A notification action starts tracking the meeting.** -/
def StartsTracking (key : Text) (m : Manager R) : Action → Prop
  | .acted k type => ¬ Tracks m key ∧ Tracks (m.onNotificationAction k type) key
  | _ => False

instance (key : Text) (m : Manager R) : DecidablePred (StartsTracking key m)
  | .acted _ _ => inferInstanceAs (Decidable (_ ∧ _))
  | .detected _ | .ended _ | .commanded _ | .updated _ | .resumed _ | .listening _ => isFalse id

/-- The meeting is awaited, and it is its end that is reported: under its key, or under none while no other meeting
is known. -/
def EndsAwaited (m : Manager R) (k key : Text) : Prop :=
  m.awaiting = some key ∧ (k = key ∨ k = [] ∧ m.active = none)

instance (m : Manager R) (k key : Text) : Decidable (EndsAwaited m k key) := inferInstanceAs (Decidable (_ ∧ _))

/-- **No action starts tracking the meeting.** -/
def NeverStarted (key : Text) (m : Manager R) (as : List Action) : Prop :=
  Along Manager.step (fun m a => ¬ StartsTracking key m a) m as

instance (key : Text) (m : Manager R) (as : List Action) : Decidable (NeverStarted key m as) :=
  decidableAlong _ _ m as

/-! ### What takes the question back -/

/-- The user dismisses the meeting, or another one is asked about or tracked. -/
def Withdraws (key : Text) (m : Manager R) : Action → Prop
  | .acted k .dismiss => k = key
  | .detected k => m.IsNew k ∧ (m.settings.autoStartTracking = true ∨ m.settings.notifyOnDetect = true)
  | _ => False

instance (key : Text) (m : Manager R) : DecidablePred (Withdraws key m)
  | .acted _ .dismiss => inferInstanceAs (Decidable (_ = _))
  | .detected _ => inferInstanceAs (Decidable (_ ∧ _))
  | .acted _ .start | .ended _ | .commanded _ | .updated _ | .resumed _ | .listening _ => isFalse id

/-- **The question is taken back before anyone clicks on Start.** -/
def Withdrawn (key : Text) : Manager R → List Action → Prop
  | _, [] => True
  | m, a :: as => Withdraws key m a ∨ a ≠ .acted key .start ∧ (m.step a).elim True (Withdrawn key · as)

instance decidableWithdrawn (key : Text) : ∀ (m : Manager R) (as : List Action), Decidable (Withdrawn key m as)
  | _, [] => isTrue trivial
  | m, a :: as =>
    have : Decidable ((m.step a).elim True (Withdrawn key · as)) :=
      match m.step a with
      | none => isTrue trivial
      | some m' => decidableWithdrawn key m' as
    inferInstanceAs (Decidable (_ ∨ _ ∧ _))

/-- A start is a click on Start, with the question standing. -/
theorem startsTracking_iff (h : Refused m) :
    StartsTracking key m a ↔ a = .acted key .start ∧ m.awaiting = some key := by
  constructor
  · intro ha
    cases a with
    | acted k type =>
      obtain ⟨hnot, hstate, hactive⟩ := ha
      unfold Manager.onNotificationAction at hstate hactive
      split_ifs at hstate hactive with hk
      · cases type with
        | start =>
          obtain rfl : k = key := Option.some.inj hactive
          exact ⟨rfl, hk⟩
        | dismiss => simp [Manager.suspend] at hstate
      · exact absurd ⟨hstate, hactive⟩ hnot
    | detected | ended | commanded | updated | resumed | listening => exact ha.elim
  · rintro ⟨rfl, hawaiting⟩
    refine ⟨fun ht => h.awaits key hawaiting ht.2, ?_⟩
    rw [Manager.onNotificationAction, if_pos hawaiting]
    exact ⟨rfl, rfl⟩

/-! ### The question from step to step -/

/-- A detection asks about another meeting, or changes nothing in what is asked. -/
theorem awaiting_onDetected (hne : k ≠ key) :
    (m.onDetected k).awaiting = some key ↔ m.awaiting = some key ∧ ¬ Withdraws key m (.detected k) := by
  unfold Manager.onDetected
  by_cases hnew : m.IsNew k
  · rw [if_pos hnew]
    cases hauto : m.settings.autoStartTracking with
    | true => simp [Withdraws, hnew, hauto, Manager.startTracking, Manager.suspend]
    | false =>
      cases hnotify : m.settings.notifyOnDetect with
      | true => simp [Withdraws, hnew, hauto, hnotify, Manager.suspend, hne]
      | false => simp [Withdraws, hauto, hnotify]
  · simp [Withdraws, hnew]

/-- A notification action answers its own question only. -/
theorem awaiting_onNotificationAction {type : NotificationActionType} :
    (m.onNotificationAction k type).awaiting = some key ↔ m.awaiting = some key ∧ k ≠ key := by
  unfold Manager.onNotificationAction
  split_ifs with hk
  · cases type with
    | start =>
      simp only [Manager.startTracking, Manager.suspend, hk, Option.some.injEq]
      tauto
    | dismiss =>
      simp only [Manager.suspend, hk, Option.some.injEq]
      tauto
  · have hmem : m.awaiting = some key → k ≠ key := by
      rintro hkey rfl
      exact hk hkey
    exact ⟨fun hkey => ⟨hkey, hmem hkey⟩, And.left⟩

/-- **The question stands until it is answered or taken back.** -/
theorem awaiting_step (hs : m.step a = some m') (hne : a ≠ .detected key) :
    m'.awaiting = some key ↔ m.awaiting = some key ∧ ¬ Withdraws key m a ∧ a ≠ .acted key .start := by
  cases a with
  | detected k =>
    have hk : k ≠ key := fun hk => hne (congrArg _ hk)
    have hm : (m.onDetected k).awaiting = some key ↔ _ := awaiting_onDetected hk
    rw [← Option.some.inj hs, hm]
    simp
  | acted k type =>
    have hm : (m.onNotificationAction k type).awaiting = some key ↔ _ := awaiting_onNotificationAction
    rw [← Option.some.inj hs, hm]
    cases type with
    | start => simp [Withdraws]
    | dismiss => simp [Withdraws]
  | ended _ | commanded _ | updated _ | resumed _ | listening _ =>
    have hsame : m'.awaiting = m.awaiting := by
      cases moves_of_step hs <;> rfl
    simp [Withdraws, hsame]

/-- The end of a meeting does not touch the question. -/
theorem awaiting_onEnded : (m.onEnded k).awaiting = m.awaiting := by
  generalize hm : m.onEnded k = m'
  have hmoves : Moves m (.ended k) m' := hm ▸ moves_onEnded
  cases hmoves <;> rfl

/-! ### Runs -/

/-- Without the question, and without a new detection, nothing starts. -/
theorem neverStarted_of_not_awaited (h : Refused m) (ha : m.awaiting ≠ some key) (hnew : .detected key ∉ as) :
    NeverStarted key m as := by
  induction as generalizing m with
  | nil => trivial
  | cons a as ih =>
    rw [List.mem_cons, not_or] at hnew
    refine ⟨fun hstart => ha ((startsTracking_iff h).mp hstart).2, ?_⟩
    cases hs : m.step a with
    | none => trivial
    | some m' =>
      have hawaited : m'.awaiting ≠ some key := fun hm => ha ((awaiting_step hs (Ne.symm hnew.1)).mp hm).1
      exact ih (refused_step h hs) hawaited hnew.2

/-- **With the question standing, nothing starts if and only if it is taken back first.** -/
theorem neverStarted_iff_withdrawn (h : Refused m) (ha : m.awaiting = some key) (hnew : .detected key ∉ as) :
    NeverStarted key m as ↔ Withdrawn key m as := by
  induction as generalizing m with
  | nil => exact Iff.rfl
  | cons a as ih =>
    rw [List.mem_cons, not_or] at hnew
    have hstart : StartsTracking key m a ↔ a = .acted key .start :=
      (startsTracking_iff h).trans (and_iff_left ha)
    have hrest {m' : Manager R} (hs : m.step a = some m') := awaiting_step hs (Ne.symm hnew.1)
    by_cases hw : Withdraws key m a
    · have hclick : a ≠ .acted key .start := by
        rintro rfl
        exact hw
      refine iff_of_true ⟨fun hs => hclick (hstart.mp hs), ?_⟩ (Or.inl hw)
      cases hs : m.step a with
      | none => trivial
      | some m' =>
        exact neverStarted_of_not_awaited (refused_step h hs) (fun hm => ((hrest hs).mp hm).2.1 hw) hnew.2
    · have hhead : ¬ StartsTracking key m a ↔ a ≠ .acted key .start := not_congr hstart
      have htail (hclick : a ≠ .acted key .start) : (m.step a).elim True (NeverStarted key · as) ↔
          (m.step a).elim True (Withdrawn key · as) := by
        cases hs : m.step a with
        | none => exact Iff.rfl
        | some m' => exact ih (refused_step h hs) ((hrest hs).mpr ⟨ha, hw, hclick⟩) hnew.2
      have hwhole : Withdrawn key m (a :: as) ↔
          a ≠ .acted key .start ∧ (m.step a).elim True (Withdrawn key · as) := or_iff_right hw
      rw [hwhole, ← and_congr_right htail, ← hhead]
      exact Iff.rfl

section Runs
variable {companionOverlay : Bool} {settings : MeetingDetectionSettings}

/-- **A meeting that has ended while it was awaited is not started, until it is detected again, if and only if the
question is taken back before anyone clicks on Start.** -/
theorem not_started_iff (h : Reach Manager.step (fun _ _ => True) (started companionOverlay settings) m)
    (hends : EndsAwaited m k key) (hnew : .detected key ∉ as) :
    NeverStarted key (m.onEnded k) as ↔ Withdrawn key (m.onEnded k) as := by
  have hrefused : Refused m := h.inv refused_started fun _ _ _ hr _ => refused_step hr
  have hended : Refused (m.onEnded k) := refused_step (a := .ended k) hrefused rfl
  exact neverStarted_iff_withdrawn hended (awaiting_onEnded.trans hends.1) hnew

end Runs

/-- A meeting ends while the user is asked about it, and is dismissed before its notification is clicked on. -/
theorem dismissed_in_time : ∃ m : Manager plain, run Manager.step (started true {}) [.detected ['a']] = some m ∧
    EndsAwaited m [] ['a'] ∧ NeverStarted ['a'] (m.onEnded []) [.acted ['a'] .dismiss, .acted ['a'] .start] := by
  have h : ∃ m : Manager plain, run Manager.step (started true {}) [.detected ['a']] = some m ∧
      EndsAwaited m [] ['a'] ∧ Withdrawn ['a'] (m.onEnded []) [.acted ['a'] .dismiss, .acted ['a'] .start] :=
    ⟨_, rfl, by decide, by decide⟩
  obtain ⟨m, hrun, hends, hwithdrawn⟩ := h
  have hreach : Reach Manager.step (fun _ _ => True) (started true {}) m :=
    Reach.of_run (along_of_forall (fun _ _ _ => trivial) _) hrun
  exact ⟨m, hrun, hends, (not_started_iff hreach hends (by decide)).mpr hwithdrawn⟩

/-- **A click on the notification of a meeting that has ended starts tracking it.** -/
theorem started_after_end : ¬ ∀ (m : Manager plain) (k key : Text) (as : List Action),
    Reach Manager.step (fun _ _ => True) (started true {}) m → EndsAwaited m k key → .detected key ∉ as →
      NeverStarted key (m.onEnded k) as := by
  intro h
  have hreach : Reach Manager.step (fun _ _ => True) (started true {} : Manager plain)
      (Manager.onDetected (started true {}) ['a']) := .step (a := .detected ['a']) .init trivial rfl
  exact absurd (h _ ['a'] ['a'] [.acted ['a'] .start] hreach (by decide) (by decide)) (by decide)

end Notely.Desktop.MeetingEndings
