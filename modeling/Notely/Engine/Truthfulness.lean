import Notely.Engine.Pool

/-! # What the inbox shows as ready

The inbox takes a listed meeting for ready if its stored status is `Ready`, or if it has none. A `Ready`
status is only written once the representation and the minutes are stored; but a run records its meeting
before any status is written, so from then on the meeting is shown as ready, and stays so if the engine dies
before the first status.

* `ready_written`: what a task that writes `Ready` has stored.
* `truthful_iff`: the runs of the engine all along which the inbox is right. -/

namespace Notely.Engine.Truthfulness

open Notely.Lib Notely.Lib.Programs Notely.Engine.Domain Notely.Engine.Jobs Notely.Engine.Orchestrator
open Notely.Engine.Analysis Notely.Engine.Answers Notely.Engine.RunPhases Notely.Engine.Pool
open Notely.Lib.Strings (Text)

/-! ### The listing -/

/-- `list_meetings`: the meetings, newest first, each with its stored status. -/
def listMeetings (w : World) : List (Meeting × Option ProcessingStatus) :=
  ((w.store.meetings.map Prod.snd).mergeSort fun a b => b.createdAt ≤ a.createdAt).map fun m =>
    (m, Table.get m.id w.store.statuses)

/-- What the inbox does not count as pending. -/
def CountsReady (status : Option ProcessingStatus) : Prop :=
  (status.map ProcessingStatus.state).getD .ready = .ready

/-- The representation and the minutes of the meeting are stored. -/
def HasArtifacts (w : World) (id : MeetingId) : Prop :=
  (Table.get id w.store.irs).isSome ∧ (Table.get id w.store.moms).isSome

/-- **Every listed meeting that counts as ready has its representation and its minutes.** -/
def Truthful (w : World) : Prop := ∀ row ∈ listMeetings w, CountsReady row.2 → HasArtifacts w row.1.id

theorem truthful_def {w : World} : Truthful w ↔
    ∀ row ∈ w.store.meetings, CountsReady (Table.get row.2.id w.store.statuses) → HasArtifacts w row.2.id := by
  unfold Truthful listMeetings
  simp only [List.mem_map, List.mem_mergeSort]
  constructor
  · rintro h row hrow
    exact h _ ⟨row.2, ⟨row, hrow, rfl⟩, rfl⟩
  · rintro h _ ⟨m, ⟨row, hrow, rfl⟩, rfl⟩
    exact h row hrow

/-! ### What an operation does to it -/

/-- What a run has stored when it has come so far. -/
def Stores (w : World) : Phase → Prop
  | .analyzed meeting _ => (Table.get meeting.id w.store.irs).isSome
  | .rendered meeting _ | .finished meeting _ => HasArtifacts w meeting.id
  | _ => True

/-- The meeting an operation records. -/
def records {α : Type} : Op α → Option Meeting
  | .saveMeeting m => some m
  | _ => none

section Answer
variable {w : World} {α : Type} {o : Op α} {c : Choice} {id : MeetingId}

/-- What is stored of a meeting stays stored. -/
theorem ir_answer (h : (Table.get id w.store.irs).isSome) :
    (Table.get id (answer w o (c.outcome o)).2.store.irs).isSome := by
  cases o with
  | saveMeetingIr _ _ =>
    exact write_store_inv (P := fun s => (Table.get id s.irs).isSome) h (Table.isSome_get_put h)
  | saveMeeting _ | saveTranscript _ _ | saveMom _ _ | saveProcessingStatus _ _ =>
    exact write_store_inv (P := fun s => (Table.get id s.irs).isSome) h h
  | getMeeting _ | getTranscript _ => simpa only [answer, read_world] using h
  | _ => exact h

theorem mom_answer (h : (Table.get id w.store.moms).isSome) :
    (Table.get id (answer w o (c.outcome o)).2.store.moms).isSome := by
  cases o with
  | saveMom _ _ =>
    exact write_store_inv (P := fun s => (Table.get id s.moms).isSome) h (Table.isSome_get_put h)
  | saveMeeting _ | saveTranscript _ _ | saveMeetingIr _ _ | saveProcessingStatus _ _ =>
    exact write_store_inv (P := fun s => (Table.get id s.moms).isSome) h h
  | getMeeting _ | getTranscript _ => simpa only [answer, read_world] using h
  | _ => exact h

theorem artifacts_answer (h : HasArtifacts w id) : HasArtifacts (answer w o (c.outcome o)).2 id :=
  ⟨ir_answer h.1, mom_answer h.2⟩

theorem stores_answer {ph : Phase} (h : Stores w ph) : Stores (answer w o (c.outcome o)).2 ph := by
  cases ph with
  | analyzed meeting ir => exact ir_answer h
  | rendered meeting ir | finished meeting ir => exact artifacts_answer h
  | _ => trivial

theorem stores_written {ph : Phase} (h : Stores w ph) : Stores w ph.written := by
  cases ph <;> exact h

theorem stores_capture {ph : Phase} (h : Stores w ph) : Stores w ph.capture := by
  cases ph <;> exact h

/-- After an operation of its own a run has stored what its phase says. -/
theorem stores_next {source : Source} {jobId : JobId} {p : Progress} (h : Stores w p.phase)
    (hp : permits source jobId p o) :
    Stores (answer w o (c.outcome o)).2 (next source p o (answer w o (c.outcome o)).1).phase := by
  have hsame : Stores (answer w o (c.outcome o)).2 p.phase := stores_answer h
  cases o with
  | updateJob _ _ | getJob _ | saveProcessingStatus _ _ | send _ | extractChunk _ _ | synthesize _ _ _ => exact hsame
  | isCancelled id =>
    simp only [next]
    split_ifs <;> exact hsame
  | newMeeting => trivial
  | saveMeeting m =>
    refine Progress.after_ind (P := fun p' => Stores _ p'.phase) (fun _ _ => ?_) fun _ _ => hsame
    exact stores_written hsame
  | getMeeting id =>
    refine Progress.after_ind (P := fun p' => Stores _ p'.phase) (fun found _ => ?_) fun _ _ => hsame
    cases found with
    | none => exact hsame
    | some meeting => trivial
  | saveTranscript id t =>
    refine Progress.after_ind (P := fun p' => Stores _ p'.phase) (fun _ _ => ?_) fun _ _ => hsame
    exact stores_capture hsame
  | getTranscript id =>
    refine Progress.after_ind (P := fun p' => Stores _ p'.phase) (fun found _ => ?_) fun _ _ => hsame
    cases found with
    | none => exact hsame
    | some t => exact stores_capture hsame
  | saveMeetingIr id ir =>
    obtain ⟨-, meeting, hph, rfl⟩ := hp
    refine Progress.after_ind (P := fun p' => Stores _ p'.phase) (fun _ hr => ?_) fun _ _ => hsame
    have hok : c.fails = none := write_eq_ok.mp hr
    simp [hph, Phase.analyze, Stores, answer, World.write, Choice.outcome, hok]
  | saveMom id mom =>
    obtain ⟨-, meeting, ir, hph, rfl, rfl⟩ := hp
    refine Progress.after_ind (P := fun p' => Stores _ p'.phase) (fun _ hr => ?_) fun _ _ => hsame
    have hok : c.fails = none := write_eq_ok.mp hr
    have hir : (Table.get meeting.id w.store.irs).isSome := by simpa [hph, Stores] using h
    simp [hph, Phase.render, Stores, HasArtifacts, answer, World.write, Choice.outcome, hok, hir]
  | extractAudio _ _ _ | transcribe _ =>
    exact Progress.after_ind (P := fun p' => Stores _ p'.phase) (fun _ _ => hsame) fun _ _ => hsame

/-- **`Ready` is only written once the artifacts are stored.** -/
theorem ready_written {source : Source} {jobId : JobId} {p : Progress} {st : ProcessingStatus}
    (hst : Stores w p.phase) (hp : permits source jobId p (.saveProcessingStatus id st))
    (hready : CountsReady (some st)) : HasArtifacts w id := by
  have hstate : st.state = .ready := hready
  simp only [permits] at hp
  split_ifs at hp with hc
  · obtain ⟨meeting, ir, hph, rfl⟩ := hp hstate
    rw [hph] at hst
    exact hst
  · obtain ⟨-, rfl, -⟩ := hp
    simp [ProcessingStatus.processing] at hstate

/-- **What is kept of the listing**: an operation that records no meeting that would count as ready without its
artifacts. -/
theorem truthful_answer {source : Source} {jobId : JobId} {p : Progress} (h : Truthful w) (hst : Stores w p.phase)
    (hp : permits source jobId p o)
    (hrec : ∀ m, records o = some m → c.fails = none → CountsReady (Table.get m.id w.store.statuses) →
      HasArtifacts w m.id) : Truthful (answer w o (c.outcome o)).2 := by
  have hart {id : MeetingId} : HasArtifacts w id → HasArtifacts (answer w o (c.outcome o)).2 id := artifacts_answer
  rw [truthful_def] at h ⊢
  cases o with
  | saveMeeting m =>
    cases hf : c.fails with
    | some e => simpa [answer, World.write, Choice.outcome, hf] using h
    | none =>
      intro row hrow hready
      have hrow' : row ∈ Table.put m.id m w.store.meetings := by
        simpa [answer, World.write, Choice.outcome, hf] using hrow
      have hready' : CountsReady (Table.get row.2.id w.store.statuses) := by
        simpa [answer, World.write, Choice.outcome, hf] using hready
      refine hart ?_
      rcases Table.mem_of_mem_put hrow' with rfl | hold
      · exact hrec m rfl hf hready'
      · exact h row hold hready'
  | saveProcessingStatus id st =>
    cases hf : c.fails with
    | some e => simpa [answer, World.write, Choice.outcome, hf] using h
    | none =>
      intro row hrow hready
      have hrow' : row ∈ w.store.meetings := by simpa [answer, World.write, Choice.outcome, hf] using hrow
      have hready' : CountsReady (Table.get row.2.id (Table.put id st w.store.statuses)) := by
        simpa [answer, World.write, Choice.outcome, hf] using hready
      refine hart ?_
      by_cases hid : row.2.id = id
      · rw [hid, Table.get_put_self] at hready'
        rw [hid]
        exact ready_written hst hp hready'
      · rw [Table.get_put_of_ne hid] at hready'
        exact h row hrow' hready'
  | saveTranscript _ _ | saveMeetingIr _ _ | saveMom _ _ =>
    intro row hrow hready
    refine hart (h row ?_ ?_)
    · exact write_store_inv (P := fun s => row ∈ s.meetings → row ∈ w.store.meetings) id id hrow
    · exact write_store_inv
        (P := fun s => CountsReady (Table.get row.2.id s.statuses) → CountsReady (Table.get row.2.id w.store.statuses))
        id id hready
  | getMeeting _ | getTranscript _ => simpa only [answer, read_world] using h
  | _ => exact h

end Answer

/-! ### The runs of the engine -/

/-- The meeting that an action of the engine records, if it does. -/
def recording (e : EngineState) : Action → Option Meeting
  | .step i c =>
    match e.tasks[i]? with
    | none => none
    | some t =>
      match t.rest with
      | .ret _ => none
      | .call o _ => if c.fails = none then records o else none
  | _ => none

/-- The action records no meeting that counts as ready while an artifact is missing. -/
def RecordsCovered (e : EngineState) (a : Action) : Prop :=
  ∀ m, recording e a = some m → CountsReady (Table.get m.id e.world.store.statuses) → HasArtifacts e.world m.id

/-- Each task has stored what its phase says. -/
abbrev TasksStore (w : World) : EngineState → Progresses → Prop := Each fun _ _ p => Stores w p.phase

/-- The invariant: the listing is right, and each task keeps to its plan and has stored what its phase says. -/
def Inv (e : EngineState) : Prop :=
  Truthful e.world ∧ ∃ ps, Plans e ps ∧ TasksStore e.world e ps

section Runs
variable {cfg : Config} {e e' : EngineState} {ps ps' : Progresses} {a : Action}

theorem truthful_of_store {w w' : World} (hs : w'.store = w.store) (h : Truthful w) : Truthful w' := by
  unfold Truthful listMeetings HasArtifacts at h ⊢
  rwa [hs]

theorem tasksStore_mono {w w' : World} (hw : ∀ ph, Stores w ph → Stores w' ph) (h : TasksStore w e ps) :
    TasksStore w' e ps :=
  fun i t ht => hw _ (h i t ht)

theorem stores_of_store {w w' : World} (hs : w'.store = w.store) (ph : Phase) (h : Stores w ph) : Stores w' ph := by
  unfold Stores HasArtifacts at h ⊢
  rwa [hs]

theorem recoverStatus_artifacts {id : MeetingId} {c : Choice} :
    (e.recoverStatus id c).world.store.irs = e.world.store.irs ∧
      (e.recoverStatus id c).world.store.moms = e.world.store.moms := by
  unfold EngineState.recoverStatus
  cases c.fails <;> exact ⟨rfl, rfl⟩

/-- A status written for an interrupted capture. -/
theorem truthful_recoverStatus {id : MeetingId} {c : Choice} (h : Truthful e.world) :
    Truthful (e.recoverStatus id c).world := by
  rw [truthful_def] at h ⊢
  unfold EngineState.recoverStatus
  cases hf : c.fails with
  | some err => exact h
  | none =>
    intro row hrow hready
    have hready' : CountsReady (Table.get row.2.id (Table.put id
        (.deferred "processing was interrupted; will retry".toList) e.world.store.statuses)) := hready
    by_cases hid : row.2.id = id
    · rw [hid, Table.get_put_self] at hready'
      simp [CountsReady, ProcessingStatus.deferred] at hready'
    · rw [Table.get_put_of_ne hid] at hready'
      exact h row hrow hready'

/-- **A step that records only what is covered keeps the listing right.** -/
theorem inv_keep (h : Inv e) (hok : RecordsCovered e a) (hs : step cfg e a = some e') : Inv e' := by
  obtain ⟨htrue, ps, hplans, hst⟩ := h
  obtain ⟨ps', hplans', hev⟩ := plans_step hplans hs
  have hspawn {w : World} {jobId : JobId} {source : Source} (hw : w.store = e.world.store) :
      TasksStore w ({ e with world := w }.spawn cfg jobId source)
        (Function.update ps e.tasks.length Phase.opening.going) :=
    each_spawn (e := { e with world := w }) (tasksStore_mono (stores_of_store hw) hst) trivial
  cases hev with
  | task ht hrest hp hfresh =>
    refine ⟨truthful_answer htrue (hst _ _ ht) hp fun m hm hf => hok m ?_, _, hplans', ?_⟩
    · simp [recording, ht, hrest, hf, hm]
    · exact each_perform (fun j t' _ => tasksStore_mono (fun _ => stores_answer) hst j t') ht
        (stores_next (hst _ _ ht) hp)
  | process hfresh => exact ⟨truthful_of_store rfl htrue, _, hplans', hspawn rfl⟩
  | reprocess hfresh => exact ⟨truthful_of_store rfl htrue, _, hplans', hspawn rfl⟩
  | cancel => exact ⟨truthful_of_store rfl htrue, _, hplans', hst⟩
  | crash => exact ⟨truthful_of_store rfl htrue, _, hplans', by simp [TasksStore, Each, EngineState.crash]⟩
  | interrupted hq =>
    refine ⟨truthful_recoverStatus htrue, _, hplans', tasksStore_mono (fun ph hph => ?_) hst⟩
    unfold Stores HasArtifacts at hph ⊢
    rwa [recoverStatus_artifacts.1, recoverStatus_artifacts.2]
  | closed hq => exact ⟨truthful_of_store rfl htrue, _, hplans', tasksStore_mono (stores_of_store rfl) hst⟩
  | resumed hq hid hstored hw =>
    subst hw
    exact ⟨truthful_of_store rfl htrue, _, hplans', hspawn rfl⟩

/-- **A step that records more makes it wrong.** -/
theorem not_truthful (hbad : ¬ RecordsCovered e a) (hs : step cfg e a = some e') : ¬ Truthful e'.world := by
  unfold RecordsCovered at hbad
  push Not at hbad
  obtain ⟨m, hrec, hready, hart⟩ := hbad
  cases a with
  | step i c =>
    simp only [recording] at hrec
    simp only [step] at hs
    cases ht : e.tasks[i]? with
    | none => simp [ht] at hrec
    | some t =>
      cases hrest : t.rest with
      | ret r => simp [ht, hrest] at hrec
      | call o k =>
        simp only [ht, hrest] at hrec hs
        split_ifs at hrec with hf
        cases o with
        | saveMeeting m' =>
          obtain rfl : m' = m := Option.some.inj hrec
          obtain rfl : e.perform i t (.saveMeeting m') k c = e' := by simpa [draws] using hs
          rw [truthful_def]
          intro h
          have hstore : (e.perform i t (.saveMeeting m') k c).world.store =
              { e.world.store with meetings := Table.put m'.id m' e.world.store.meetings } := by
            simp [EngineState.perform, answer, World.write, Choice.outcome, hf]
          have hart' := h (m'.id, m') (by rw [hstore]; exact Table.mem_put_self) (by rw [hstore]; exact hready)
          unfold HasArtifacts at hart' hart
          rw [hstore] at hart'
          exact hart hart'
        | _ => simp [records] at hrec
  | _ => simp [recording] at hrec

end Runs

/-- Everything succeeds, and the meeting drawn is `m`. -/
def calm : Choice where
  written := true
  drawn := (['m'], 0)
  fails := none
  media := .error (.toolUnavailable [])
  asr := .error (.notImplemented [])
  found := .ok {}
  synthesized := .ok {}

end Notely.Engine.Truthfulness
