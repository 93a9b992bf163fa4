import Notely.Desktop.MeetingCoherence
import Mathlib.Data.List.Infix

/-! # A meeting is asked about once

The manager of `Desktop/MeetingSession` remembers the keys it has asked about (`seen`) and those the user dismissed,
and `_finalize` forgets both for the meeting it finalizes. It reads which one that is only when it ends: a meeting
accepted in the meantime is forgotten though nothing finalized it, and asked about again (`asked_twice`). In every
other run a key is asked about at most once between two finalizations (`asked_once`), and in every run never again
once it is dismissed (`not_after_dismissal`). Whatever is forgotten so is asked about again when it is seen
(`asks_again`).

A meeting is finalized when a `_finalize` begins that finds it tracked. `since` counts the prompts from then on; the
invariant is that a key that is not remembered was not asked about since. -/

namespace Notely.Desktop.MeetingPrompts

open Notely.Lib.Strings Notely.Lib.Lts Notely.Desktop.MeetingSession
open Notely.Desktop.Capture (Recorder)
open Notely.Desktop.CaptureSafety (plain)
open Notely.Desktop.MeetingCoherence (accepted ended closed)

variable {R : Recorder} {m m' : Manager R} {a : Action} {key : Text} {l l' : List Note} {e : Note}

/-! ### What is asked for -/

/-- **Between two finalizations of the key there is at most one prompt for it.** -/
def AskedOnce (key : Text) (l : List Note) : Prop :=
  ∀ l1 l2 l3, l = l1 ++ l2 ++ l3 → .finalized key ∉ l2 → l2.count (.prompted key) ≤ 1

/-- **There is none after the key was dismissed.** -/
def NotAfterDismissal (key : Text) (l : List Note) : Prop :=
  ∀ l1 l2, l = l1 ++ .dismissed key :: l2 → .prompted key ∉ l2

/-! ### Prompts since the last finalization -/

/-- The prompts for a key since it was last finalized. -/
def since (key : Text) (l : List Note) : ℕ :=
  l.foldl (fun n e => if e = .finalized key then 0 else if e = .prompted key then n + 1 else n) 0

theorem since_concat : since key (l ++ [e]) =
    if e = .finalized key then 0 else if e = .prompted key then since key l + 1 else since key l := by
  simp [since, List.foldl_append]

theorem since_append (h : .finalized key ∉ l') : since key (l ++ l') = since key l + l'.count (.prompted key) := by
  induction l' using List.reverseRecOn with
  | nil => simp
  | append_singleton l' e ih =>
    simp only [List.mem_append, List.mem_singleton, not_or] at h
    rw [← List.append_assoc, since_concat, if_neg (Ne.symm h.2), ih h.1, List.count_append]
    by_cases he : e = .prompted key
    · simp [he, Nat.add_assoc]
    · simp [he]

/-- The prompts that are counted are those after some cut. -/
theorem exists_since (key : Text) (l : List Note) :
    ∃ l1 l2, l = l1 ++ l2 ∧ .finalized key ∉ l2 ∧ since key l = l2.count (.prompted key) := by
  induction l using List.reverseRecOn with
  | nil => exact ⟨[], [], rfl, by simp, rfl⟩
  | append_singleton l e ih =>
    obtain ⟨l1, l2, rfl, hfinal, hcount⟩ := ih
    by_cases he : e = .finalized key
    · refine ⟨l1 ++ l2 ++ [e], [], by simp, by simp, ?_⟩
      rw [since_concat, if_pos he, List.count_nil]
    · have hnot : .finalized key ∉ l2 ++ [e] := by simp [hfinal, Ne.symm he]
      refine ⟨l1, l2 ++ [e], by simp, hnot, ?_⟩
      have hwhole : since key (l1 ++ (l2 ++ [e])) = since key l1 + (l2 ++ [e]).count (.prompted key) :=
        since_append hnot
      have hpart : since key (l1 ++ l2) = since key l1 + l2.count (.prompted key) := since_append hfinal
      rw [List.append_assoc, hwhole]
      omega

/-- Whoever is never asked about twice is asked about once between finalizations. -/
theorem askedOnce_of_since (h : ∀ p, p <+: l → since key p ≤ 1) : AskedOnce key l := by
  rintro l1 l2 l3 rfl hfinal
  have hle : since key (l1 ++ l2) ≤ 1 := h _ (List.prefix_append _ _)
  rw [since_append hfinal] at hle
  omega

theorem AskedOnce.since_le (h : AskedOnce key l) : since key l ≤ 1 := by
  obtain ⟨l1, l2, rfl, hfinal, hcount⟩ := exists_since key l
  exact hcount ▸ h l1 l2 [] (by simp) hfinal

/-- **A `_finalize` forgets no other**: one that ends while a meeting is tracked, taken up since it began, finds a
meeting that was not asked about since it was last finalized (it was started without a prompt). -/
def ForgetsNoOther (m : Manager R) (a : Action) : Prop :=
  a = .resumed .hidingCompanion → m.state = .tracking → ∀ key ∈ m.active, since key m.history = 0

instance (m : Manager R) : DecidablePred (ForgetsNoOther m) := fun _ => inferInstanceAs (Decidable (_ → _))

/-! ### The invariant -/

/-- The invariant. -/
structure Inv (m : Manager R) : Prop where
  once : ∀ key p, p <+: m.history → since key p ≤ 1
  unseen : ∀ key, key ∉ m.seen → since key m.history = 0
  awaits : m.state = .tracking → m.awaiting = none
  ended : m.state ≠ .tracking → ∀ key ∈ m.active, since key m.history = 0

/-- A `_startTracking` begins. -/
theorem inv_startTracking {seen : Finset Text} (h : Inv m) (hseen : m.seen ⊆ seen) :
    Inv ({ m with seen := seen }.startTracking key) where
  once := h.once
  unseen k hk := h.unseen k fun hmem => hk (hseen hmem)
  awaits _ := rfl
  ended hs := absurd rfl hs

theorem once_concat (h : ∀ p, p <+: l → since key p ≤ 1) (he : since key (l ++ [e]) ≤ 1) :
    ∀ p, p <+: l ++ [e] → since key p ≤ 1 := by
  intro p hp
  rcases List.prefix_concat_iff.mp hp with rfl | hp
  · exact he
  · exact h p hp

theorem inv_step (h : Inv m) (hf : ForgetsNoOther m a) (hs : m.step a = some m') : Inv m' := by
  cases moves_of_step hs with
  | keeps | leaves | starts | ticks => exact ⟨h.once, h.unseen, h.awaits, h.ended⟩
  | notices => exact ⟨h.once, fun k hk => h.unseen k fun hmem => hk (Finset.mem_insert_of_mem hmem), h.awaits, h.ended⟩
  | @prompts key hnew =>
    have hzero : since key m.history = 0 := h.unseen key hnew.2.2.1
    have hother : ∀ k, k ≠ key → since k (m.history ++ [.prompted key]) = since k m.history := fun k hk => by
      simp [since_concat, Ne.symm hk]
    refine ⟨fun k => once_concat (h.once k) ?_, fun k hk => ?_, by simp, fun _ k hk => ?_⟩
    · by_cases hk : k = key
      · simp [hk, since_concat, hzero]
      · exact hother k hk ▸ h.once k _ (List.prefix_refl _)
    · rw [Finset.mem_insert, not_or] at hk
      exact hother k hk.1 ▸ h.unseen k hk.2
    · have hne : k ≠ key := by
        rintro rfl
        exact hnew.2.1 (Or.inl hk)
      exact hother k hne ▸ h.ended hnew.2.2.2 k hk
  | tracks => exact inv_startTracking h (Finset.subset_insert _ _)
  | accepts => exact inv_startTracking h (Finset.Subset.refl _)
  | @dismisses key hawaiting =>
    have hstate : m.state ≠ .tracking := fun hs => by simp [h.awaits hs] at hawaiting
    have hsame : ∀ k, since k (m.history ++ [.dismissed key]) = since k m.history := fun k => by
      simp [since_concat]
    refine ⟨fun k => once_concat (h.once k) ?_, fun k hk => ?_, by simp, fun _ k hk => ?_⟩
    · exact hsame k ▸ h.once k _ (List.prefix_refl _)
    · exact hsame k ▸ h.unseen k hk
    · exact hsame k ▸ h.ended hstate k hk
  | finalizes =>
    cases hactive : m.active with
    | none =>
      refine ⟨?_, ?_, by simp, by simp⟩
      · simpa [hactive] using h.once
      · simpa [hactive] using h.unseen
    | some key =>
      have hle : ∀ k, since k (m.history ++ [.finalized key]) ≤ since k m.history := fun k => by
        by_cases hk : k = key
        · simp [hk, since_concat]
        · simp [since_concat, Ne.symm hk]
      refine ⟨fun k => ?_, fun k hk => ?_, by simp, fun _ k hk => ?_⟩
      · exact once_concat (h.once k) ((hle k).trans (h.once k _ (List.prefix_refl _)))
      · exact Nat.eq_zero_of_le_zero (h.unseen k hk ▸ hle k)
      · obtain rfl : key = k := by simpa using hk
        simp [since_concat]
  | finishes =>
    have hzero : ∀ key ∈ m.active, since key m.history = 0 := by
      by_cases hstate : m.state = .tracking
      · exact hf rfl hstate
      · exact h.ended hstate
    refine ⟨h.once, fun k hk => ?_, by simp [Manager.finished], by simp [Manager.finished]⟩
    cases hactive : m.active with
    | none => exact h.unseen k (by simpa [Manager.finished, hactive] using hk)
    | some key =>
      by_cases he : k = key
      · exact hzero k (he ▸ hactive)
      · exact h.unseen k (by simpa [Manager.finished, hactive, he] using hk)

theorem inv_started {companionOverlay : Bool} {settings : MeetingDetectionSettings} :
    Inv (started companionOverlay settings : Manager R) where
  once key p hp := by simp [List.prefix_nil.mp hp, since]
  unseen _ _ := rfl
  awaits := by simp [started]
  ended := by simp [started]

/-- A dismissed key is not taken up again. -/
structure Refused (m : Manager R) : Prop where
  apart : ∀ key ∈ m.dismissed, m.active ≠ some key ∧ m.awaiting ≠ some key
  awaits : ∀ key, m.awaiting = some key → m.active ≠ some key
  kept : ∀ key, .dismissed key ∈ m.history → key ∈ m.dismissed
  silent : ∀ key, NotAfterDismissal key m.history

/-- What is noted after a dismissal is no prompt for the key. -/
theorem notAfterDismissal_concat (h : NotAfterDismissal key l) (he : .dismissed key ∈ l → e ≠ .prompted key) :
    NotAfterDismissal key (l ++ [e]) := by
  intro l1 l2 hl
  rcases List.eq_nil_or_concat l2 with rfl | ⟨l2, e', rfl⟩
  · simp
  · have hcut : l ++ [e] = (l1 ++ .dismissed key :: l2) ++ [e'] := by simpa using hl
    obtain ⟨rfl, hlast⟩ := List.append_inj' hcut rfl
    obtain rfl : e = e' := by simpa using hlast
    have hnot : .prompted key ∉ l2 := h l1 l2 rfl
    simpa [hnot] using (he (by simp)).symm

theorem refused_startTracking (h : Refused m) (hkey : key ∉ m.dismissed) : Refused (m.startTracking key) where
  apart k hk := by
    refine ⟨fun ha => ?_, by simp [Manager.startTracking, Manager.suspend]⟩
    obtain rfl : key = k := by simpa [Manager.startTracking, Manager.suspend] using ha
    exact hkey hk
  awaits := by simp [Manager.startTracking, Manager.suspend]
  kept := h.kept
  silent := h.silent

theorem refused_step (h : Refused m) (hs : m.step a = some m') : Refused m' := by
  cases moves_of_step hs with
  | keeps | leaves | starts | ticks | notices => exact ⟨h.apart, h.awaits, h.kept, h.silent⟩
  | @prompts key hnew =>
    refine ⟨fun k hk => ⟨(h.apart k hk).1, ?_⟩, ?_, fun k hk => h.kept k (by simpa using hk), fun k => ?_⟩
    · rintro ⟨⟩
      exact hnew.1 hk
    · rintro k ⟨⟩
      exact fun ha => hnew.2.1 (Or.inl ha)
    · refine notAfterDismissal_concat (h.silent k) fun hk => ?_
      rintro ⟨⟩
      exact hnew.1 (h.kept _ hk)
  | tracks hnew => exact refused_startTracking ⟨h.apart, h.awaits, h.kept, h.silent⟩ hnew.1
  | accepts hawaiting => exact refused_startTracking h fun hk => (h.apart _ hk).2 hawaiting
  | @dismisses key hawaiting =>
    refine ⟨fun k hk => ⟨?_, by simp⟩, by simp, fun k hk => ?_, fun k => ?_⟩
    · rcases Finset.mem_insert.mp hk with rfl | hk
      · exact h.awaits _ hawaiting
      · exact (h.apart k hk).1
    · rcases List.mem_append.mp hk with hk | hk
      · exact Finset.mem_insert_of_mem (h.kept k hk)
      · obtain rfl : k = key := by simpa using hk
        exact Finset.mem_insert_self _ _
    · exact notAfterDismissal_concat (h.silent k) fun _ => by simp
  | finalizes =>
    cases hactive : m.active with
    | none =>
      have hhistory : m.history ++ (m.active.map Note.finalized).toList = m.history := by simp [hactive]
      exact ⟨hactive ▸ h.apart, hactive ▸ h.awaits, fun k hk => h.kept k (by simpa using hk),
        by simpa using h.silent⟩
    | some key =>
      refine ⟨hactive ▸ h.apart, hactive ▸ h.awaits, fun k hk => h.kept k (by simpa using hk), fun k => ?_⟩
      exact notAfterDismissal_concat (h.silent k) fun _ => by simp
  | finishes =>
    have hdismissed : m.finished.dismissed = m.dismissed := by
      cases hactive : m.active with
      | none => simp [Manager.finished, hactive]
      | some key =>
        have hkey : key ∉ m.dismissed := fun hk => (h.apart key hk).1 hactive
        simp [Manager.finished, hactive, hkey]
    refine ⟨fun k hk => ⟨by simp [Manager.finished], (h.apart k (hdismissed ▸ hk)).2⟩, by simp [Manager.finished],
      fun k hk => ?_, h.silent⟩
    exact hdismissed.symm ▸ h.kept k hk

theorem refused_started {companionOverlay : Bool} {settings : MeetingDetectionSettings} :
    Refused (started companionOverlay settings : Manager R) where
  apart := by simp [started]
  awaits := by simp [started]
  kept := by simp [started]
  silent key l1 l2 h := by simp [started] at h

/-! ### Runs -/

section Runs
variable {companionOverlay : Bool} {settings : MeetingDetectionSettings}

theorem asked_once (h : Reach Manager.step ForgetsNoOther (started companionOverlay settings) m) (key : Text) :
    AskedOnce key m.history :=
  askedOnce_of_since ((h.inv inv_started fun _ _ _ => inv_step).once key)

/-- A dismissed key is not asked about again, in whatever run. -/
theorem not_after_dismissal {ok : Manager R → Action → Prop}
    (h : Reach Manager.step ok (started companionOverlay settings) m) (key : Text) : NotAfterDismissal key m.history :=
  (h.inv refused_started fun _ _ _ hr _ => refused_step hr).silent key

/-- **No re-nag**, in every run in which a `_finalize` forgets no other meeting than its own. -/
theorem no_renag (h : Reach Manager.step ForgetsNoOther (started companionOverlay settings) m) (key : Text) :
    AskedOnce key m.history ∧ NotAfterDismissal key m.history :=
  ⟨asked_once h key, not_after_dismissal h key⟩

/-- **What another `_finalize` forgets is asked about again**: once it has ended, a detection is a second prompt. -/
theorem asks_again {ok : Manager R → Action → Prop} (h : Reach Manager.step ok (started companionOverlay settings) m)
    (hactive : m.active = some key) (hasked : since key m.history ≠ 0) (hauto : m.settings.autoStartTracking = false)
    (hnotify : m.settings.notifyOnDetect = true) : ¬ AskedOnce key (m.finished.onDetected key).history := by
  have hr : Refused m := h.inv refused_started fun _ _ _ hr _ => refused_step hr
  have hkept : key ∉ m.dismissed := fun hmem => (hr.apart key hmem).1 hactive
  have hawaiting : m.awaiting ≠ some key := fun ha => hr.awaits key ha hactive
  have hnew : m.finished.IsNew key := by
    simp [Manager.IsNew, Manager.finished, hactive, hkept, hawaiting]
  have hhistory : (m.finished.onDetected key).history = m.history ++ [.prompted key] := by
    unfold Manager.onDetected
    rw [if_pos hnew]
    simp [Manager.finished, hauto, hnotify, Manager.suspend]
  intro honce
  have hle : since key (m.history ++ [.prompted key]) ≤ 1 := (hhistory ▸ honce).since_le
  simp [since_concat] at hle
  exact hasked hle

end Runs

/-- A meeting that is asked about, accepted and finalized, seen again and dismissed, and seen once more. -/
def dismissed : List Action :=
  accepted ['a'] ++ ended ['a'] ++ [.detected ['a'], .acted ['a'] .dismiss, .detected ['a']]

/-- It is asked about twice, with a finalization between. -/
theorem dismissed_once :
    ∃ m : Manager plain, run Manager.step (started true {}) dismissed = some m ∧
      m.history = [.prompted ['a'], .finalized ['a'], .prompted ['a'], .dismissed ['a']] ∧
      AskedOnce ['a'] m.history ∧ NotAfterDismissal ['a'] m.history := by
  have h : ∃ m : Manager plain, run Manager.step (started true {}) dismissed = some m ∧
      m.history = [.prompted ['a'], .finalized ['a'], .prompted ['a'], .dismissed ['a']] := ⟨_, rfl, rfl⟩
  obtain ⟨m, hrun, hhistory⟩ := h
  exact ⟨m, hrun, hhistory, no_renag (Reach.of_run (by decide) hrun) ['a']⟩

/-- A meeting is accepted while another one is finalized, and is seen again. -/
def hurried : List Action :=
  accepted ['a'] ++ [.ended ['a'], .detected ['b'], .acted ['b'] .start] ++ closed ++
    [.resumed .stopping, .resumed .hidingCompanion, .detected ['b']]

/-- **The meeting is asked about twice**, and was not finalized. -/
theorem asked_twice :
    ∃ m : Manager plain, run Manager.step (started true {}) hurried = some m ∧
      m.history = [.prompted ['a'], .finalized ['a'], .prompted ['b'], .prompted ['b']] ∧
      ¬ AskedOnce ['b'] m.history := by
  refine ⟨_, rfl, rfl, fun h => ?_⟩
  exact absurd (h [.prompted ['a'], .finalized ['a']] [.prompted ['b'], .prompted ['b']] [] rfl (by decide)) (by decide)

end Notely.Desktop.MeetingPrompts
