import Notely.Engine.Pool

/-! # Whose transcript is stored where

A task that processes a new capture draws an id of its own and stores the transcript it was given under it;
no other task stores one there, and a stored transcript is never replaced. So what a job says of its meeting
— in its record, in its events, and to the task that resumes it — leads to the transcript the job was given.

* `Orderly`: ids are drawn once, and a task awaits its transcript under an id no other has; `orderly_step`.
* `Holds`: the transcript that is, or will be, stored under an id.
* `Owns`: everything a job says of its meeting leads to one transcript; `owns_step`. -/

namespace Notely.Engine.Custody

open Notely.Lib Notely.Lib.Programs Notely.Lib.Monitors Notely.Engine.Domain Notely.Engine.Jobs
open Notely.Engine.Orchestrator Notely.Engine.Analysis Notely.Engine.Answers Notely.Engine.RunPhases
open Notely.Engine.Pool
open Notely.Lib.Strings (Text)

/-! ### The records of jobs -/

/-- The entries and the rows are of jobs whose ids are drawn. -/
structure Known (r : JobRegistry) (issued : List Text) : Prop where
  entry : ∀ id entry, Table.get id r.inner = some entry → entry.job.id = id ∧ id ∈ issued
  row : ∀ row ∈ r.store, row.2.id ∈ issued

/-- The meetings that the records of a job name meet `Q`. -/
structure Names (r : JobRegistry) (own : JobId) (Q : MeetingId → Prop) : Prop where
  entry : ∀ entry, Table.get own r.inner = some entry → ∀ m, entry.job.meetingId = some m → Q m
  row : ∀ row ∈ r.store, row.2.id = own → ∀ m, row.2.meetingId = some m → Q m

section Registry
variable {r : JobRegistry} {own id : JobId} {job : Job} {f : Job → Job} {written : Bool} {Q Q' : MeetingId → Prop}
  {issued issued' : List Text}

theorem mem_persist {row : JobId × Job} (h : row ∈ (r.persist job written).store) :
    row ∈ r.store ∨ row = (job.id, job) := by
  unfold JobRegistry.persist at h
  split_ifs at h
  · exact (Table.mem_of_mem_put h).symm
  · exact Or.inl h

theorem inner_reinsert_of_ne (h : own ≠ job.id) :
    Table.get own (r.reinsert job written).inner = Table.get own r.inner := by
  simp only [JobRegistry.reinsert, inner_persist]
  exact Table.get_put_of_ne h

theorem inner_reinsert_self : Table.get job.id (r.reinsert job written).inner = some ⟨job, false⟩ :=
  Table.get_put_self

theorem inner_update_of_ne (h : own ≠ id) :
    Table.get own (r.update id f written).inner = Table.get own r.inner := by
  unfold JobRegistry.update
  cases Table.get id r.inner with
  | none => rfl
  | some entry =>
    simp only [inner_persist]
    exact Table.get_put_of_ne h

theorem inner_update_self :
    Table.get id (r.update id f written).inner = (Table.get id r.inner).map fun e => { e with job := f e.job } := by
  unfold JobRegistry.update
  cases h : Table.get id r.inner with
  | none => simp [h]
  | some entry => simp

theorem mem_update {row : JobId × Job} (h : row ∈ (r.update id f written).store) :
    row ∈ r.store ∨ ∃ entry, Table.get id r.inner = some entry ∧ row.2 = f entry.job := by
  unfold JobRegistry.update at h
  cases hg : Table.get id r.inner with
  | none =>
    rw [hg] at h
    exact Or.inl h
  | some entry =>
    rw [hg] at h
    rcases mem_persist h with h | rfl
    · exact Or.inl h
    · exact Or.inr ⟨entry, rfl, rfl⟩

/-- A request to cancel leaves the jobs as they are. -/
theorem inner_requestCancel {entry : Entry} (h : Table.get own (r.requestCancel id).2.inner = some entry) :
    ∃ entry', Table.get own r.inner = some entry' ∧ entry.job = entry'.job := by
  unfold JobRegistry.requestCancel at h
  cases hg : Table.get id r.inner with
  | none =>
    rw [hg] at h
    exact ⟨entry, h, rfl⟩
  | some entry' =>
    rw [hg] at h
    by_cases hid : own = id
    · subst hid
      rw [Table.get_put_self] at h
      exact ⟨entry', hg, by rw [← Option.some.inj h]⟩
    · rw [Table.get_put_of_ne hid] at h
      exact ⟨entry, h, rfl⟩

theorem store_requestCancel : (r.requestCancel id).2.store = r.store := by
  unfold JobRegistry.requestCancel
  cases Table.get id r.inner <;> rfl

theorem Known.mono (h : Known r issued) (hsub : issued ⊆ issued') : Known r issued' :=
  ⟨fun id entry hj => ⟨(h.entry id entry hj).1, hsub (h.entry id entry hj).2⟩, fun row hr => hsub (h.row row hr)⟩

theorem Known.persist (h : Known r issued) (job : Job) (hjob : job.id ∈ issued) :
    Known (r.persist job written) issued := by
  refine ⟨fun id entry hj => ?_, fun row hrow => ?_⟩
  · rw [inner_persist] at hj
    exact h.entry id entry hj
  · rcases mem_persist hrow with hrow | rfl
    · exact h.row row hrow
    · exact hjob

theorem Known.reinsert (h : Known r issued) (job : Job) (hjob : job.id ∈ issued) :
    Known (r.reinsert job written) issued := by
  refine ⟨fun id entry hj => ?_, (h.persist job hjob).row⟩
  by_cases hid : id = job.id
  · subst hid
    rw [inner_reinsert_self] at hj
    rw [← Option.some.inj hj]
    exact ⟨rfl, hjob⟩
  · rw [inner_reinsert_of_ne hid] at hj
    exact h.entry id entry hj

theorem Known.update (h : Known r issued) (hf : ∀ job, (f job).id = job.id) :
    Known (r.update id f written) issued := by
  refine ⟨fun j entry hj => ?_, fun row hrow => ?_⟩
  · by_cases hid : j = id
    · subst hid
      rw [inner_update_self] at hj
      obtain ⟨entry', hget, rfl⟩ := Option.map_eq_some_iff.mp hj
      exact ⟨(hf _).trans (h.entry j entry' hget).1, (h.entry j entry' hget).2⟩
    · rw [inner_update_of_ne hid] at hj
      exact h.entry j entry hj
  · rcases mem_update hrow with hrow | ⟨entry, hget, heq⟩
    · exact h.row row hrow
    · rw [heq, hf, (h.entry id entry hget).1]
      exact (h.entry id entry hget).2

theorem Known.requestCancel (h : Known r issued) : Known (r.requestCancel id).2 issued := by
  refine ⟨fun j entry hj => ?_, by rw [store_requestCancel]; exact h.row⟩
  obtain ⟨entry', hget, hjob⟩ := inner_requestCancel hj
  rw [hjob]
  exact h.entry j entry' hget

theorem Names.mono (h : Names r own Q) (hq : ∀ m, Q m → Q' m) : Names r own Q' :=
  ⟨fun entry hj m hm => hq m (h.entry entry hj m hm), fun row hrow hown m hm => hq m (h.row row hrow hown m hm)⟩

theorem Names.persist (h : Names r own Q) (job : Job) (hq : job.id = own → ∀ m, job.meetingId = some m → Q m) :
    Names (r.persist job written) own Q := by
  refine ⟨fun entry hj => ?_, fun row hrow hown => ?_⟩
  · rw [inner_persist] at hj
    exact h.entry entry hj
  · rcases mem_persist hrow with hrow | rfl
    · exact h.row row hrow hown
    · exact hq hown

theorem Names.reinsert (h : Names r own Q) (hq : job.id = own → ∀ m, job.meetingId = some m → Q m) :
    Names (r.reinsert job written) own Q := by
  refine ⟨fun entry hj => ?_, (h.persist job hq).row⟩
  by_cases hown : own = job.id
  · subst hown
    rw [inner_reinsert_self] at hj
    rw [← Option.some.inj hj]
    exact hq rfl
  · rw [inner_reinsert_of_ne hown] at hj
    exact h.entry entry hj

theorem Names.create (h : Names r own Q) {kind : JobKind} : Names (r.create kind id written) own Q :=
  h.reinsert fun _ m hm => by simp [Job.new] at hm

theorem Names.update (h : Names r own Q) (hk : Known r issued) (hf : ∀ job, (f job).id = job.id)
    (hq : id = own → ∀ job m, (f job).meetingId = some m → job.meetingId = some m ∨ Q m) :
    Names (r.update id f written) own Q := by
  have hentry {entry : Entry} (hown : id = own) (hget : Table.get id r.inner = some entry) (m : MeetingId)
      (hm : (f entry.job).meetingId = some m) : Q m := by
    rcases hq hown entry.job m hm with hm | hm
    · exact h.entry entry (hown ▸ hget) m hm
    · exact hm
  refine ⟨fun entry hj => ?_, fun row hrow hown => ?_⟩
  · by_cases hown : own = id
    · subst hown
      rw [inner_update_self] at hj
      obtain ⟨entry', hget, rfl⟩ := Option.map_eq_some_iff.mp hj
      exact hentry rfl hget
    · rw [inner_update_of_ne hown] at hj
      exact h.entry entry hj
  · rcases mem_update hrow with hrow | ⟨entry, hget, heq⟩
    · exact h.row row hrow hown
    · rw [heq] at hown ⊢
      exact hentry (by rw [← hown, hf, (hk.entry id entry hget).1]) hget

theorem Names.requestCancel (h : Names r own Q) : Names (r.requestCancel id).2 own Q := by
  refine ⟨fun entry hj => ?_, by rw [store_requestCancel]; exact h.row⟩
  obtain ⟨entry', hget, hjob⟩ := inner_requestCancel hj
  rw [hjob]
  exact h.entry entry' hget

/-- A new id is in no record. -/
theorem Known.names (h : Known r issued) (hown : own ∉ issued) : Names r own Q :=
  ⟨fun entry hj => absurd (h.entry own entry hj).2 hown, fun row hrow hid => absurd (hid ▸ h.row row hrow) hown⟩

end Registry

/-! ### What an operation does -/

/-- The phases in which the transcript is stored. -/
def Phase.Past (m : MeetingId) : Phase → Prop
  | .opening | .drawn _ | .recorded _ => False
  | .captured meeting | .analyzed meeting _ | .rendered meeting _ | .finished meeting _ => meeting.id = m

/-- The phases in which the meeting is stored. -/
def Phase.Listed (m : MeetingId) : Phase → Prop
  | .opening | .drawn _ => False
  | .recorded meeting | .captured meeting | .analyzed meeting _ | .rendered meeting _ | .finished meeting _ =>
    meeting.id = m

section Phases
variable {ph : Phase} {m : MeetingId} {ir : MeetingIr}

theorem has_of_past (h : Phase.Past m ph) : ph.Has m := by
  cases ph with
  | opening | drawn meeting | recorded meeting => exact h.elim
  | captured meeting | analyzed meeting ir | rendered meeting ir | finished meeting ir => exact h

theorem has_of_listed (h : Phase.Listed m ph) : ph.Has m := by
  cases ph with
  | opening | drawn meeting => exact h.elim
  | recorded meeting | captured meeting | analyzed meeting ir | rendered meeting ir | finished meeting ir => exact h

@[simp] theorem has_written : ph.written.Has m ↔ ph.Has m := by cases ph <;> rfl
@[simp] theorem has_capture : ph.capture.Has m ↔ ph.Has m := by cases ph <;> rfl
@[simp] theorem has_analyze : (ph.analyze ir).Has m ↔ ph.Has m := by cases ph <;> rfl
@[simp] theorem has_render : ph.render.Has m ↔ ph.Has m := by cases ph <;> rfl
@[simp] theorem past_written : Phase.Past m ph.written ↔ Phase.Past m ph := by cases ph <;> rfl
@[simp] theorem past_analyze : Phase.Past m (ph.analyze ir) ↔ Phase.Past m ph := by cases ph <;> rfl
@[simp] theorem past_render : Phase.Past m ph.render ↔ Phase.Past m ph := by cases ph <;> rfl

theorem past_capture (h : Phase.Past m ph) : Phase.Past m ph.capture := by
  cases ph with
  | recorded meeting => exact h.elim
  | _ => exact h

theorem listed_written {meeting : Meeting} (hw : ph.Writes meeting) (h : Phase.Listed m ph.written) :
    Phase.Listed m ph ∨ meeting.id = m := by
  cases ph with
  | drawn drawn =>
    obtain rfl : meeting = drawn := hw
    exact Or.inr h
  | _ => exact Or.inl h

@[simp] theorem listed_capture : Phase.Listed m ph.capture ↔ Phase.Listed m ph := by cases ph <;> rfl
@[simp] theorem listed_analyze : Phase.Listed m (ph.analyze ir) ↔ Phase.Listed m ph := by cases ph <;> rfl
@[simp] theorem listed_render : Phase.Listed m ph.render ↔ Phase.Listed m ph := by cases ph <;> rfl

end Phases

section Operation
variable {source : Source} {jobId : JobId} {p : Progress} {w : World} {α : Type} {o : Op α} {c : Outcome o}
  {m : MeetingId}

/-- **Transcripts are stored** as they were submitted, under the meeting of a run that then passes its capture. -/
theorem transcripts_answer (h : permits source jobId p o) :
    (answer w o c).2.store.transcripts = w.store.transcripts ∨
      ∃ id t, source.Submits t ∧ Phase.Listed id p.phase ∧ ¬ Phase.Past id p.phase ∧
        Phase.Past id (next source p o (answer w o c).1).phase ∧
        (answer w o c).2.store.transcripts = Table.put id t w.store.transcripts := by
  cases o with
  | saveTranscript id t =>
    obtain ⟨-, ht, meeting, hph, rfl⟩ := h
    cases c with
    | none =>
      refine Or.inr ⟨meeting.id, t, ht, by rw [hph]; rfl, by rw [hph]; exact id, ?_, rfl⟩
      simp only [next, hph]
      rfl
    | some e => exact Or.inl rfl
  | saveMeeting _ | saveMeetingIr _ _ | saveMom _ _ | saveProcessingStatus _ _ => cases c <;> exact Or.inl rfl
  | getMeeting _ | getTranscript _ => cases c <;> exact Or.inl rfl
  | _ => exact Or.inl rfl

/-- Meetings are stored under their ids. -/
theorem meetings_answer : (answer w o c).2.store.meetings = w.store.meetings ∨
    ∃ meeting, (answer w o c).2.store.meetings = Table.put meeting.id meeting w.store.meetings := by
  cases o with
  | saveMeeting meeting =>
    cases c with
    | none => exact Or.inr ⟨meeting, rfl⟩
    | some e => exact Or.inl rfl
  | saveTranscript _ _ | saveMeetingIr _ _ | saveMom _ _ | saveProcessingStatus _ _ => cases c <;> exact Or.inl rfl
  | getMeeting _ | getTranscript _ => cases c <;> exact Or.inl rfl
  | _ => exact Or.inl rfl

/-- A meeting stored stays stored. -/
theorem meeting_isSome_answer (h : (Table.get m w.store.meetings).isSome) :
    (Table.get m (answer w o c).2.store.meetings).isSome := by
  rcases meetings_answer (w := w) (o := o) (c := c) with heq | ⟨meeting, heq⟩
  · rwa [heq]
  · rw [heq]
    exact Table.isSome_get_put h

/-- Only the job of the run is changed. -/
theorem jobs_answer (h : permits source jobId p o) : (answer w o c).2.jobs = w.jobs ∨
    ∃ f written, p.Updates source f ∧ (answer w o c).2.jobs = w.jobs.update jobId f written := by
  cases o with
  | updateJob id f =>
    obtain ⟨rfl, hf⟩ := h
    exact Or.inr ⟨f, c, hf, rfl⟩
  | saveMeeting _ | saveTranscript _ _ | saveMeetingIr _ _ | saveMom _ _ | saveProcessingStatus _ _ =>
    cases c <;> exact Or.inl rfl
  | getMeeting _ | getTranscript _ => cases c <;> exact Or.inl rfl
  | _ => exact Or.inl rfl

/-- What is sent tells of the run. -/
theorem events_answer (h : permits source jobId p o) : (answer w o c).2.events = w.events ∨
    ∃ event, p.Tells jobId event ∧ (answer w o c).2.events = w.events ++ [event] := by
  cases o with
  | send event => exact Or.inr ⟨event, h, rfl⟩
  | saveMeeting _ | saveTranscript _ _ | saveMeetingIr _ _ | saveMom _ _ | saveProcessingStatus _ _ =>
    cases c <;> exact Or.inl rfl
  | getMeeting _ | getTranscript _ => cases c <;> exact Or.inl rfl
  | _ => exact Or.inl rfl

end Operation

section Reply
variable {source : Source} {jobId : JobId} {p : Progress} {w : World} {α : Type} {o : Op α} {c : Choice}
  {m : MeetingId}

/-- A run has the meeting it had, or one it has just drawn or loaded. -/
theorem has_next (h : permits source jobId p o)
    (hm : (next source p o (answer w o (c.outcome o)).1).phase.Has m) :
    p.phase.Has m ∨ (draws o = true ∧ m = c.drawn.1) ∨
      ∃ id meeting, source = .reprocess id ∧ Table.get id w.store.meetings = some meeting ∧ m = meeting.id := by
  cases o with
  | isCancelled id =>
    left
    simp only [next] at hm
    split_ifs at hm <;> exact hm
  | newMeeting => exact Or.inr (Or.inl ⟨rfl, hm.symm⟩)
  | getMeeting id =>
    obtain ⟨-, -, hsource⟩ := h
    unfold next Progress.found at hm
    cases hr : (answer w (.getMeeting id) (c.outcome (.getMeeting id))).1 with
    | error e =>
      rw [hr] at hm
      exact Or.inl hm
    | ok found =>
      rw [hr] at hm
      obtain ⟨-, hfound⟩ := read_eq_ok.mp hr
      cases found with
      | none => exact Or.inl hm
      | some meeting => exact Or.inr (Or.inr ⟨id, meeting, hsource, hfound, hm.symm⟩)
  | getTranscript id =>
    left
    unfold next Progress.found at hm
    cases hr : (answer w (.getTranscript id) (c.outcome (.getTranscript id))).1 with
    | error e =>
      rw [hr] at hm
      exact hm
    | ok found =>
      rw [hr] at hm
      cases found with
      | none => exact hm
      | some t => exact has_capture.mp hm
  | saveMeeting _ | saveTranscript _ _ | saveMeetingIr _ _ | saveMom _ _ | extractAudio _ _ _ | transcribe _ =>
    left
    revert hm
    exact Progress.after_ind (P := fun q => q.phase.Has m → p.phase.Has m) (fun _ _ hm => by simpa using hm)
      fun _ _ hm => hm
  | _ => exact Or.inl hm

/-- A run has its meeting stored: it stores it, or loads it. -/
theorem listed_next (h : permits source jobId p o)
    (hkeyed : ∀ id meeting, Table.get id w.store.meetings = some meeting → meeting.id = id)
    (hm : Phase.Listed m (next source p o (answer w o (c.outcome o)).1).phase) :
    Phase.Listed m p.phase ∨ (Table.get m (answer w o (c.outcome o)).2.store.meetings).isSome := by
  cases o with
  | isCancelled id =>
    left
    simp only [next] at hm
    split_ifs at hm <;> exact hm
  | newMeeting => exact hm.elim
  | saveMeeting meeting =>
    simp only [next] at hm
    cases hr : (answer w (.saveMeeting meeting) (c.outcome (.saveMeeting meeting))).1 with
    | error e =>
      rw [hr] at hm
      exact Or.inl hm
    | ok u =>
      rw [hr] at hm
      have hc : c.fails = none := write_eq_ok.mp hr
      rcases listed_written h.2 hm with hm | rfl
      · exact Or.inl hm
      · right
        simp [answer, World.write, Choice.outcome, hc]
  | getMeeting id =>
    simp only [next, Progress.found] at hm
    cases hr : (answer w (.getMeeting id) (c.outcome (.getMeeting id))).1 with
    | error e =>
      rw [hr] at hm
      exact Or.inl hm
    | ok found =>
      rw [hr] at hm
      obtain ⟨-, hfound⟩ := read_eq_ok.mp hr
      cases found with
      | none => exact Or.inl hm
      | some meeting =>
        obtain rfl : meeting.id = m := hm
        right
        simp [answer, hkeyed id meeting hfound, hfound]
  | getTranscript id =>
    left
    simp only [next, Progress.found] at hm
    cases hr : (answer w (.getTranscript id) (c.outcome (.getTranscript id))).1 with
    | error e =>
      rw [hr] at hm
      exact hm
    | ok found =>
      rw [hr] at hm
      cases found with
      | none => exact hm
      | some t => exact listed_capture.mp hm
  | saveTranscript _ _ | saveMeetingIr _ _ | saveMom _ _ | extractAudio _ _ _ | transcribe _ =>
    left
    revert hm
    exact Progress.after_ind (P := fun q => Phase.Listed m q.phase → Phase.Listed m p.phase)
      (fun _ _ hm => by simpa using hm) fun _ _ hm => hm
  | _ => exact Or.inl hm

/-- **A run passes the capture** when its transcript is stored. -/
theorem past_next (h : permits source jobId p o) (hl : ∀ id, source = .reprocess id → p.phase.Has m → m = id)
    (hm : Phase.Past m (next source p o (answer w o (c.outcome o)).1).phase) :
    Phase.Past m p.phase ∨ (Table.get m (answer w o (c.outcome o)).2.store.transcripts).isSome := by
  cases o with
  | isCancelled id =>
    left
    simp only [next] at hm
    split_ifs at hm <;> exact hm
  | newMeeting => exact hm.elim
  | getMeeting id =>
    left
    simp only [next, Progress.found] at hm
    cases hr : (answer w (.getMeeting id) (c.outcome (.getMeeting id))).1 with
    | error e =>
      rw [hr] at hm
      exact hm
    | ok found =>
      rw [hr] at hm
      cases found with
      | none => exact hm
      | some meeting => exact hm.elim
  | saveTranscript id t =>
    obtain ⟨-, -, meeting, hph, rfl⟩ := h
    simp only [next, hph] at hm
    cases hr : (answer w (.saveTranscript meeting.id t) (c.outcome (.saveTranscript meeting.id t))).1 with
    | error e =>
      rw [hr] at hm
      exact Or.inl hm
    | ok u =>
      rw [hr] at hm
      obtain rfl : meeting.id = m := hm
      have hc : c.fails = none := write_eq_ok.mp hr
      right
      simp [answer, World.write, Choice.outcome, hc]
  | getTranscript id =>
    obtain ⟨-, hsource, meeting, hph⟩ := h
    simp only [next, Progress.found, hph] at hm
    cases hr : (answer w (.getTranscript id) (c.outcome (.getTranscript id))).1 with
    | error e =>
      rw [hr] at hm
      exact Or.inl hm
    | ok found =>
      rw [hr] at hm
      obtain ⟨-, hfound⟩ := read_eq_ok.mp hr
      cases found with
      | none => exact hm.elim
      | some t =>
        obtain rfl : meeting.id = m := hm
        obtain rfl := hl id hsource (by rw [hph]; rfl)
        right
        simp [answer, hfound]
  | saveMeeting _ | saveMeetingIr _ _ | saveMom _ _ | extractAudio _ _ _ | transcribe _ =>
    left
    revert hm
    exact Progress.after_ind (P := fun q => Phase.Past m q.phase → Phase.Past m p.phase)
      (fun _ _ hm => by simpa using hm) fun _ _ hm => hm
  | _ => exact Or.inl hm

/-- **What an operation makes of the phase of its run.** -/
theorem phase_next (h : permits source jobId p o) {r : α} :
    (next source p o r).phase = p.phase ∨
      p.phase = .opening ∧
        ((∃ input, source = .process input) ∨ ∃ meeting, (next source p o r).phase = .recorded meeting) ∨
      (next source p o r).phase = p.phase.written ∨ (next source p o r).phase = p.phase.capture ∨
      (∃ ir, (next source p o r).phase = p.phase.analyze ir) ∨ (next source p o r).phase = p.phase.render := by
  cases o with
  | isCancelled id =>
    left
    simp only [next]
    split_ifs <;> rfl
  | newMeeting => exact Or.inr (Or.inl ⟨h.2.1, Or.inl h.2.2⟩)
  | getMeeting id =>
    cases r with
    | error e => exact Or.inl rfl
    | ok found =>
      cases found with
      | none => exact Or.inl rfl
      | some meeting => exact Or.inr (Or.inl ⟨h.2.1, Or.inr ⟨meeting, rfl⟩⟩)
  | getTranscript id =>
    cases r with
    | error e => exact Or.inl rfl
    | ok found =>
      cases found with
      | none => exact Or.inl rfl
      | some t => simp [next, Progress.found, Progress.after]
  | saveMeetingIr id ir =>
    cases r with
    | ok u => exact Or.inr (Or.inr (Or.inr (Or.inr (Or.inl ⟨ir, rfl⟩))))
    | error e => exact Or.inl rfl
  | saveMeeting _ | saveTranscript _ _ | saveMom _ _ | extractAudio _ _ _ | transcribe _ =>
    cases r with
    | ok u => simp [next, Progress.after]
    | error e => exact Or.inl rfl
  | _ => exact Or.inl rfl

/-- A run that has its meeting keeps it. -/
theorem has_keep (h : permits source jobId p o) (hm : p.phase.Has m) {r : α} :
    (next source p o r).phase.Has m := by
  rcases phase_next h (r := r) with heq | ⟨hopening, -⟩ | heq | heq | ⟨ir, heq⟩ | heq
  · rwa [heq]
  · rw [hopening] at hm
    exact hm.elim
  all_goals
    rw [heq]
    simpa using hm

/-- A run that has passed the capture has passed it. -/
theorem past_keep (h : permits source jobId p o) (hm : Phase.Past m p.phase) {r : α} :
    Phase.Past m (next source p o r).phase := by
  rcases phase_next h (r := r) with heq | ⟨hopening, -⟩ | heq | heq | ⟨ir, heq⟩ | heq
  · rwa [heq]
  · rw [hopening] at hm
    exact hm.elim
  · rwa [heq, past_written]
  · rw [heq]
    exact past_capture hm
  · rwa [heq, past_analyze]
  · rwa [heq, past_render]

end Reply

/-! ### The order of the engine -/

/-- The job of a task is known, and a run that loads its meeting has the one it was started for. -/
structure TaskOrder (issued : List Text) (t : Running) (p : Progress) : Prop where
  job : t.jobId ∈ issued
  loaded : ∀ id m, t.source = .reprocess id → p.phase.Has m → m = id

/-- Task `i` submits a transcript, and `m` is its meeting. -/
def Drawn (e : EngineState) (ps : Progresses) (i : ℕ) (m : MeetingId) : Prop :=
  ∃ t tr, e.tasks[i]? = some t ∧ t.source.Submits tr ∧ (ps i).phase.Has m

/-- **The order of the engine.** Ids are drawn once, and nothing is stored under one before its transcript. -/
structure Orderly (e : EngineState) (ps : Progresses) : Prop where
  plans : Plans e ps
  tasks : Each (fun _ => TaskOrder e.issued) e ps
  drawn : ∀ i m, Drawn e ps i m → m ∈ e.issued
  apart : ∀ i j m, Drawn e ps i m → Drawn e ps j m → i = j
  empty : ∀ i m, Drawn e ps i m → Phase.Past m (ps i).phase ∨ Table.get m e.world.store.transcripts = none
  recorded : Each (fun _ _ p => ∀ m, Phase.Listed m p.phase → (Table.get m e.world.store.meetings).isSome) e ps
  listed : ∀ m, (Table.get m e.world.store.transcripts).isSome → (Table.get m e.world.store.meetings).isSome
  keys : ∀ m, (Table.get m e.world.store.transcripts).isSome → m ∈ e.issued
  keyed : ∀ id meeting, Table.get id e.world.store.meetings = some meeting → meeting.id = id
  known : Known e.world.jobs e.issued
  recovering : ∀ job, .job job ∈ e.recovering → job.id ∈ e.issued

section Order
variable {cfg : Config} {e e' : EngineState} {ps ps' : Progresses} {a : Action} {issued issued' : List Text}
  {i : ℕ} {t : Running} {p : Progress} {β : Type} {o : Op β} {k : β → Routine (Except PipelineError MeetingId)}
  {c : Choice} {jobId : JobId} {source : Source}

theorem orderly_start : Orderly {} (fun _ => Phase.opening.going) where
  plans := by simp [Plans, Each]
  tasks := by simp [Each]
  drawn := by simp [Drawn]
  apart := by simp [Drawn]
  empty := by simp [Drawn]
  recorded := by simp [Each]
  listed := by simp
  keys := by simp
  keyed := by simp
  known := ⟨by simp, by simp⟩
  recovering := by simp

theorem TaskOrder.mono (h : TaskOrder issued t p) (hsub : issued ⊆ issued') : TaskOrder issued' t p :=
  ⟨hsub h.job, h.loaded⟩

theorem taskOrder_new (h : jobId ∈ issued) :
    TaskOrder issued ⟨jobId, source, source.program cfg jobId⟩ Phase.opening.going :=
  ⟨h, fun _ _ _ hm => hm.elim⟩

theorem subset_perform : e.issued ⊆ (e.perform i t o k c).issued := by
  intro id hid
  simp only [EngineState.perform]
  split_ifs
  · exact List.mem_cons_of_mem _ hid
  · exact hid

theorem drawn_perform (h : draws o = true) : c.drawn.1 ∈ (e.perform i t o k c).issued := by
  simp [EngineState.perform, h]

/-- A step of a task keeps it in order. -/
theorem TaskOrder.perform (h : TaskOrder e.issued t p) (hp : permits t.source t.jobId p o)
    (hkeyed : ∀ id meeting, Table.get id e.world.store.meetings = some meeting → meeting.id = id) :
    TaskOrder (e.perform i t o k c).issued { t with rest := k (answer e.world o (c.outcome o)).1 }
      (next t.source p o (answer e.world o (c.outcome o)).1) := by
  refine ⟨subset_perform h.job, fun id m hsource hm => ?_⟩
  rcases has_next hp hm with hm | ⟨hdraws, rfl⟩ | ⟨id', meeting, hsource', hget, rfl⟩
  · exact h.loaded id m hsource hm
  · cases o with
    | newMeeting =>
      obtain ⟨-, -, input, hinput⟩ := hp
      rw [show t.source = .reprocess id from hsource] at hinput
      cases hinput
    | _ => cases hdraws
  · rw [show t.source = .reprocess id from hsource] at hsource'
    cases hsource'
    exact hkeyed id meeting hget

theorem Known.answer {w : World} (h : Known w.jobs issued) (hp : permits source jobId p o) :
    Known (answer w o (c.outcome o)).2.jobs issued := by
  rcases jobs_answer (w := w) (c := c.outcome o) hp with heq | ⟨f, written, hf, heq⟩
  · rwa [heq]
  · rw [heq]
    exact h.update fun job => (hf job).1

/-- A run has drawn its meeting before the step, or draws it in the step. -/
theorem drawn_of_perform (ht : e.tasks[i]? = some t) (hp : permits t.source t.jobId (ps i) o) {j : ℕ} {m : MeetingId}
    (h : Drawn (e.perform i t o k c)
      (Function.update ps i (next t.source (ps i) o (answer e.world o (c.outcome o)).1)) j m) :
    Drawn e ps j m ∨ j = i ∧ draws o = true ∧ m = c.drawn.1 := by
  have heach : Each (fun j t' p => ∀ tr, t'.source.Submits tr → p.phase.Has m →
      Drawn e ps j m ∨ j = i ∧ draws o = true ∧ m = c.drawn.1) (e.perform i t o k c)
      (Function.update ps i (next t.source (ps i) o (answer e.world o (c.outcome o)).1)) := by
    refine each_perform (fun j t' _ hj tr hsub hm => Or.inl ⟨t', tr, hj, hsub, hm⟩) ht fun tr hsub hm => ?_
    rcases has_next hp hm with hm | hdraws | ⟨id, meeting, hsource, -, -⟩
    · exact Or.inl ⟨t, tr, ht, hsub, hm⟩
    · exact Or.inr ⟨rfl, hdraws⟩
    · rw [show t.source = .reprocess id from hsource] at hsub
      exact hsub.elim
  obtain ⟨t', tr, hj, hsub, hm⟩ := h
  exact heach j t' hj tr hsub hm

/-- A task just started has drawn nothing. -/
theorem drawn_of_spawn {j : ℕ} {m : MeetingId}
    (h : Drawn (e.spawn cfg jobId source) (Function.update ps e.tasks.length Phase.opening.going) j m) :
    Drawn e ps j m := by
  obtain ⟨t', tr, hj, hsub, hm⟩ := h
  have hold : Each (fun j t' p => ∀ tr, t'.source.Submits tr → p.phase.Has m → Drawn e ps j m) e ps :=
    fun j t' hj tr hsub hm => ⟨t', tr, hj, hsub, hm⟩
  exact each_spawn hold (fun tr _ hm => hm.elim) j t' hj tr hsub hm

/-- A transcript is stored by the task that has drawn its meeting. -/
theorem Orderly.perform_empty (h : Orderly e ps) (ht : e.tasks[i]? = some t)
    (hp : permits t.source t.jobId (ps i) o) {j : ℕ} {m : MeetingId} (hm : Drawn e ps j m) :
    Phase.Past m (Function.update ps i (next t.source (ps i) o (answer e.world o (c.outcome o)).1) j).phase ∨
      Table.get m (answer e.world o (c.outcome o)).2.store.transcripts = none := by
  rcases h.empty j m hm with hpast | hnone
  · left
    by_cases hij : j = i
    · subst hij
      rw [Function.update_self]
      exact past_keep hp hpast
    · rwa [Function.update_of_ne hij]
  · rcases transcripts_answer (w := e.world) (c := c.outcome o) hp with heq | ⟨id, tr, hsub, hlisted, -, hpast, heq⟩
    · right
      rwa [heq]
    · by_cases hid : m = id
      · subst hid
        obtain rfl := h.apart j i m hm ⟨t, tr, ht, hsub, has_of_listed hlisted⟩
        left
        rwa [Function.update_self]
      · right
        rwa [heq, Table.get_put_of_ne hid]

/-- A step of a task keeps the engine in order. -/
theorem Orderly.perform (h : Orderly e ps) (ht : e.tasks[i]? = some t) (hp : permits t.source t.jobId (ps i) o)
    (hfresh : draws o = true → c.drawn.1 ∉ e.issued)
    (hplans : Plans (e.perform i t o k c)
      (Function.update ps i (next t.source (ps i) o (answer e.world o (c.outcome o)).1))) :
    Orderly (e.perform i t o k c)
      (Function.update ps i (next t.source (ps i) o (answer e.world o (c.outcome o)).1)) := by
  have hdrawn {j : ℕ} {m : MeetingId} (hm : Drawn e ps j m) (hnew : draws o = true ∧ m = c.drawn.1) : False := by
    obtain ⟨hdraws, rfl⟩ := hnew
    exact hfresh hdraws (h.drawn j _ hm)
  refine ⟨hplans, ?_, fun j m hm => ?_, fun j j' m hm hm' => ?_, fun j m hm => ?_, ?_, fun m hm => ?_,
    fun m hm => ?_, fun id meeting hget => ?_, ?_, fun job hjob => subset_perform (h.recovering job hjob)⟩
  · exact each_perform (fun j t' _ hj => (h.tasks j t' hj).mono subset_perform) ht
      ((h.tasks i t ht).perform hp h.keyed)
  · rcases drawn_of_perform ht hp hm with hm | ⟨-, hdraws, rfl⟩
    · exact subset_perform (h.drawn j m hm)
    · exact drawn_perform hdraws
  · rcases drawn_of_perform ht hp hm with hm | ⟨hj, hnew⟩
    · rcases drawn_of_perform ht hp hm' with hm' | ⟨-, hnew⟩
      · exact h.apart j j' m hm hm'
      · exact (hdrawn hm hnew).elim
    · rcases drawn_of_perform ht hp hm' with hm' | ⟨hj', -⟩
      · exact (hdrawn hm' hnew).elim
      · exact hj.trans hj'.symm
  · rcases drawn_of_perform ht hp hm with hm | ⟨rfl, hdraws, rfl⟩
    · exact h.perform_empty ht hp hm
    · cases o with
      | newMeeting => exact Or.inr (Option.not_isSome_iff_eq_none.mp fun hsome => hfresh rfl (h.keys _ hsome))
      | _ => cases hdraws
  · refine each_perform (fun j t' _ hj m hm => meeting_isSome_answer (h.recorded j t' hj m hm)) ht fun m hm => ?_
    rcases listed_next hp h.keyed hm with hm | hm
    · exact meeting_isSome_answer (h.recorded i t ht m hm)
    · exact hm
  · apply meeting_isSome_answer
    rcases transcripts_answer (w := e.world) (c := c.outcome o) hp with heq | ⟨id, tr, hsub, hlisted, -, -, heq⟩
    · exact h.listed m (by rwa [← heq])
    · by_cases hid : m = id
      · exact h.recorded i t ht m (hid ▸ hlisted)
      · refine h.listed m ?_
        rw [← Table.get_put_of_ne (a := tr) hid, ← heq]
        exact hm
  · apply subset_perform
    rcases transcripts_answer (w := e.world) (c := c.outcome o) hp with heq | ⟨id, tr, hsub, hlisted, -, -, heq⟩
    · exact h.keys m (by rwa [← heq])
    · by_cases hid : m = id
      · exact hid ▸ h.drawn i id ⟨t, tr, ht, hsub, has_of_listed hlisted⟩
      · refine h.keys m ?_
        rw [← Table.get_put_of_ne (a := tr) hid, ← heq]
        exact hm
  · have hget : Table.get id (answer e.world o (c.outcome o)).2.store.meetings = some meeting := hget
    rcases meetings_answer (w := e.world) (o := o) (c := c.outcome o) with heq | ⟨saved, heq⟩
    · exact h.keyed id meeting (by rwa [heq] at hget)
    · rw [heq] at hget
      by_cases hid : id = saved.id
      · subst hid
        rw [Table.get_put_self] at hget
        rw [Option.some.inj hget]
      · rw [Table.get_put_of_ne hid] at hget
        exact h.keyed id meeting hget
  · exact (h.known.answer hp).mono subset_perform

/-- What keeps the tasks and the transcripts keeps the order. -/
theorem Orderly.frame (h : Orderly e ps) (htasks : e'.tasks = e.tasks)
    (htranscripts : e'.world.store.transcripts = e.world.store.transcripts)
    (hmeetings : e'.world.store.meetings = e.world.store.meetings) (hissued : e.issued ⊆ e'.issued)
    (hknown : Known e'.world.jobs e'.issued) (hrecovering : ∀ job, .job job ∈ e'.recovering → job.id ∈ e'.issued) :
    Orderly e' ps := by
  have hdrawn {i : ℕ} {m : MeetingId} (hm : Drawn e' ps i m) : Drawn e ps i m := by
    unfold Drawn at hm ⊢
    rwa [← htasks]
  refine ⟨fun i t ht => h.plans i t (htasks ▸ ht), fun i t ht => (h.tasks i t (htasks ▸ ht)).mono hissued,
    fun i m hm => hissued (h.drawn i m (hdrawn hm)), fun i j m hi hj => h.apart i j m (hdrawn hi) (hdrawn hj),
    fun i m hm => ?_, fun i t ht m hm => ?_, fun m hm => ?_, fun m hm => ?_, ?_, hknown, hrecovering⟩
  · rw [htranscripts]
    exact h.empty i m (hdrawn hm)
  · rw [hmeetings]
    exact h.recorded i t (htasks ▸ ht) m hm
  · rw [htranscripts] at hm
    rw [hmeetings]
    exact h.listed m hm
  · rw [htranscripts] at hm
    exact hissued (h.keys m hm)
  · rw [hmeetings]
    exact h.keyed

/-- A task started keeps the engine in order. -/
theorem Orderly.spawn (h : Orderly e ps) (hjob : jobId ∈ e.issued) :
    Orderly (e.spawn cfg jobId source) (Function.update ps e.tasks.length Phase.opening.going) := by
  refine ⟨each_spawn h.plans (program_safe cfg jobId source), each_spawn h.tasks (taskOrder_new hjob),
    fun i m hm => h.drawn i m (drawn_of_spawn hm),
    fun i j m hi hj => h.apart i j m (drawn_of_spawn hi) (drawn_of_spawn hj),
    fun i m hm => ?_, each_spawn h.recorded fun m hm => hm.elim, h.listed, h.keys, h.keyed, h.known, h.recovering⟩
  obtain ⟨t, tr, ht, hsub, hhas⟩ := drawn_of_spawn hm
  obtain ⟨hi, -⟩ := List.getElem?_eq_some_iff.mp ht
  rw [Function.update_of_ne hi.ne]
  exact h.empty i m ⟨t, tr, ht, hsub, hhas⟩

/-- A job started keeps the engine in order. -/
theorem Orderly.start {kind : JobKind} {written : Bool} (h : Orderly e ps) :
    Orderly ((e.accept jobId kind written).spawn cfg jobId source)
      (Function.update ps e.tasks.length Phase.opening.going) := by
  have hself : jobId ∈ (e.accept jobId kind written).issued := List.mem_cons_self
  have hsub : e.issued ⊆ (e.accept jobId kind written).issued := List.subset_cons_self _ _
  have haccept : Orderly (e.accept jobId kind written) ps :=
    h.frame rfl rfl rfl hsub ((h.known.mono hsub).reinsert (Job.new jobId kind) hself)
      fun job hjob => hsub (h.recovering job hjob)
  exact haccept.spawn hself

theorem mem_tail {item : Recovery} {rest : List Recovery} (h : e.recovering = item :: rest) {job : Job}
    (hjob : .job job ∈ rest) : .job job ∈ e.recovering := by
  rw [h]
  exact List.mem_cons_of_mem _ hjob

theorem mem_listUnfinished {w : World} {job : Job} (h : job ∈ listUnfinished w) :
    ∃ row ∈ w.jobs.store, row.2 = job :=
  List.mem_map.mp (List.mem_of_mem_filter h)

/-- What is recovered after a crash is in a row. -/
theorem recovering_crash {statusesListed jobsListed : Bool} {job : Job}
    (h : .job job ∈ (e.crash statusesListed jobsListed).recovering) : ∃ row ∈ e.world.jobs.store, row.2 = job := by
  rcases List.mem_append.mp h with h | h
  · split_ifs at h
    · simp at h
    · simp at h
  · split_ifs at h
    · obtain ⟨job', hjob, heq⟩ := List.mem_map.mp h
      cases heq
      exact mem_listUnfinished hjob
    · simp at h

/-- Only the status of a capture that was interrupted is written. -/
theorem recoverStatus_frame (e : EngineState) (id : MeetingId) (c : Choice) :
    (e.recoverStatus id c).world.store.transcripts = e.world.store.transcripts ∧
      (e.recoverStatus id c).world.store.meetings = e.world.store.meetings ∧
      (e.recoverStatus id c).world.jobs = e.world.jobs ∧ (e.recoverStatus id c).world.events = e.world.events := by
  unfold EngineState.recoverStatus
  cases c.fails <;> exact ⟨rfl, rfl, rfl, rfl⟩

/-- **The engine stays in order**, whatever it does. -/
theorem orderly_step (h : Orderly e ps) (hplans : Plans e' ps') (he : Evolves cfg e ps a e' ps') :
    Orderly e' ps' := by
  cases he with
  | task ht hrest hpermits hfresh => exact h.perform ht hpermits hfresh hplans
  | process hfresh | reprocess hfresh => exact h.start
  | cancel => exact h.frame rfl rfl rfl (List.Subset.refl _) h.known.requestCancel h.recovering
  | crash =>
    have hnone {i : ℕ} {m : MeetingId} {statusesListed jobsListed : Bool}
        (hm : Drawn (e.crash statusesListed jobsListed) ps i m) : False := by
      obtain ⟨t, tr, ht, -⟩ := hm
      simp [EngineState.crash] at ht
    have hknown : Known (World.rebooted e.world).jobs e.issued := ⟨by simp [World.rebooted], h.known.row⟩
    refine ⟨hplans, by simp [Each, EngineState.crash], fun i m hm => (hnone hm).elim,
      fun i j m hm => (hnone hm).elim, fun i m hm => (hnone hm).elim, by simp [Each, EngineState.crash], h.listed,
      h.keys, h.keyed, hknown, ?_⟩
    intro job hjob
    obtain ⟨row, hrow, rfl⟩ := recovering_crash hjob
    exact h.known.row row hrow
  | interrupted hq =>
    rename_i id rest c
    obtain ⟨htranscripts, hmeetings, hjobs, -⟩ := recoverStatus_frame e id c
    refine h.frame rfl htranscripts hmeetings (List.Subset.refl _) ?_ fun j hj => h.recovering j (mem_tail hq hj)
    dsimp only
    rw [hjobs]
    exact h.known
  | closed hq =>
    rename_i job rest c error
    have hjob : job.id ∈ e.issued := h.recovering job (by simp [hq])
    exact h.frame rfl rfl rfl (List.Subset.refl _)
      (h.known.persist { job with status := .failed, error := some error } hjob)
      fun j hj => h.recovering j (mem_tail hq hj)
  | resumed hq hid hstored hw =>
    rename_i job id rest c w
    subst hw
    have hjob : job.id ∈ e.issued := h.recovering job (by simp [hq])
    have hrest : Orderly { e with
        world := { e.world with jobs := e.world.jobs.reinsert job.resumed c.written }, recovering := rest } ps :=
      h.frame rfl rfl rfl (List.Subset.refl _) (h.known.reinsert job.resumed hjob)
        fun j hj => h.recovering j (mem_tail hq hj)
    exact hrest.spawn hjob

end Order

/-! ### The transcript under an id -/

/-- Only this transcript is, or will be, stored under the id. -/
structure Holds (e : EngineState) (ps : Progresses) (tr : Transcript) (m : MeetingId) : Prop where
  issued : m ∈ e.issued
  stored : ∀ t', Table.get m e.world.store.transcripts = some t' → t' = tr
  tasks : Each (fun _ t p => p.phase.Has m → ∀ t', t.source.Submits t' → t' = tr) e ps

/-- The transcript is stored under the id, for good. -/
structure Kept (e : EngineState) (ps : Progresses) (tr : Transcript) (m : MeetingId) : Prop where
  holds : Holds e ps tr m
  stored : (Table.get m e.world.store.transcripts).isSome

section Transcript
variable {cfg : Config} {e e' : EngineState} {ps ps' : Progresses} {a : Action} {tr : Transcript} {m : MeetingId}
  {i : ℕ} {t : Running} {β : Type} {o : Op β} {k : β → Routine (Except PipelineError MeetingId)} {c : Choice}

theorem Kept.get (h : Kept e ps tr m) : Table.get m e.world.store.transcripts = some tr := by
  obtain ⟨t', ht'⟩ := Option.isSome_iff_exists.mp h.stored
  rw [ht', h.holds.stored t' ht']

/-- **A transcript stored stays stored**, whatever the engine does. -/
theorem stored_step (he : Evolves cfg e ps a e' ps') (h : (Table.get m e.world.store.transcripts).isSome) :
    (Table.get m e'.world.store.transcripts).isSome := by
  cases he with
  | task ht hrest hpermits hfresh => exact transcript_isSome_answer _ _ h
  | interrupted hq =>
    rw [show _ = e.world.store.transcripts from (recoverStatus_frame e _ _).1]
    exact h
  | resumed hq hid hstored hw =>
    subst hw
    exact h
  | _ => exact h

/-- **A transcript stored is never replaced.** -/
theorem transcript_step (ho : Orderly e ps) (he : Evolves cfg e ps a e' ps')
    (h : Table.get m e.world.store.transcripts = some tr) : Table.get m e'.world.store.transcripts = some tr := by
  cases he with
  | task ht hrest hpermits hfresh =>
    rename_i i t β o k c
    rcases transcripts_answer (w := e.world) (c := c.outcome o) hpermits with
      heq | ⟨id, t1, hsub, hlisted, hpast, -, heq⟩
    · exact (congrArg (Table.get m) heq).trans h
    · refine (congrArg (Table.get m) heq).trans ?_
      by_cases hid : m = id
      · subst hid
        have hnone := (ho.empty i m ⟨t, t1, ht, hsub, has_of_listed hlisted⟩).resolve_left hpast
        rw [hnone] at h
        cases h
      · rwa [Table.get_put_of_ne hid]
  | interrupted hq => exact (congrArg (Table.get m) (recoverStatus_frame e _ _).1).trans h
  | resumed hq hid hstored hw =>
    subst hw
    exact h
  | _ => exact h

theorem meeting_step (he : Evolves cfg e ps a e' ps') (h : (Table.get m e.world.store.meetings).isSome) :
    (Table.get m e'.world.store.meetings).isSome := by
  cases he with
  | task ht hrest hpermits hfresh => exact meeting_isSome_answer h
  | interrupted hq =>
    rw [show _ = e.world.store.meetings from (recoverStatus_frame e _ _).2.1]
    exact h
  | resumed hq hid hstored hw =>
    subst hw
    exact h
  | _ => exact h

theorem Holds.perform (h : Holds e ps tr m) (ht : e.tasks[i]? = some t) (hp : permits t.source t.jobId (ps i) o)
    (hfresh : draws o = true → c.drawn.1 ∉ e.issued) :
    Holds (e.perform i t o k c)
      (Function.update ps i (next t.source (ps i) o (answer e.world o (c.outcome o)).1)) tr m := by
  have htask := h.tasks i t ht
  refine ⟨subset_perform h.issued, fun t' hget => ?_, each_perform (fun j t' _ => h.tasks j t') ht ?_⟩
  · have hget : Table.get m (answer e.world o (c.outcome o)).2.store.transcripts = some t' := hget
    rcases transcripts_answer (w := e.world) (c := c.outcome o) hp with heq | ⟨id, t1, hsub, hlisted, -, -, heq⟩
    · exact h.stored t' (by rwa [heq] at hget)
    · rw [heq] at hget
      by_cases hid : m = id
      · subst hid
        rw [Table.get_put_self] at hget
        exact Option.some.inj hget ▸ htask (has_of_listed hlisted) t1 hsub
      · rw [Table.get_put_of_ne hid] at hget
        exact h.stored t' hget
  · intro hm t' hsub
    rcases has_next hp hm with hm | ⟨hdraws, rfl⟩ | ⟨id, meeting, hsource, -, -⟩
    · exact htask hm t' hsub
    · exact absurd h.issued (hfresh hdraws)
    · rw [show t.source = .reprocess id from hsource] at hsub
      exact hsub.elim

theorem Holds.spawn (h : Holds e ps tr m) {jobId : JobId} {source : Source} :
    Holds (e.spawn cfg jobId source) (Function.update ps e.tasks.length Phase.opening.going) tr m :=
  ⟨h.issued, h.stored, each_spawn h.tasks fun hm => hm.elim⟩

/-- **Under an id no other transcript is ever stored.** -/
theorem holds_step (he : Evolves cfg e ps a e' ps') (h : Holds e ps tr m) : Holds e' ps' tr m := by
  cases he with
  | task ht hrest hpermits hfresh => exact h.perform ht hpermits hfresh
  | process hfresh | reprocess hfresh =>
    exact Holds.spawn (e := e.accept _ _ _) ⟨List.mem_cons_of_mem _ h.issued, h.stored, h.tasks⟩
  | crash => exact ⟨h.issued, h.stored, by simp [Each, EngineState.crash]⟩
  | interrupted hq =>
    refine ⟨h.issued, ?_, h.tasks⟩
    rw [show _ = e.world.store.transcripts from (recoverStatus_frame e _ _).1]
    exact h.stored
  | cancel | closed hq => exact ⟨h.issued, h.stored, h.tasks⟩
  | resumed hq hid hstored hw =>
    rename_i job id rest c w
    subst hw
    exact Holds.spawn (e := { e with
        world := { e.world with jobs := e.world.jobs.reinsert job.resumed c.written }, recovering := rest })
      ⟨h.issued, h.stored, h.tasks⟩

theorem kept_step (he : Evolves cfg e ps a e' ps') (h : Kept e ps tr m) : Kept e' ps' tr m :=
  ⟨holds_step he h.holds, stored_step he h.stored⟩

/-- **An id just drawn** is for the transcript of the run that draws it. -/
theorem holds_drawn (h : Orderly e ps) (ht : e.tasks[i]? = some t) (hp : permits t.source t.jobId (ps i) o)
    (hdraws : draws o = true) (hfresh : c.drawn.1 ∉ e.issued) (hsub : ∀ t', t.source.Submits t' → t' = tr) :
    Holds (e.perform i t o k c)
      (Function.update ps i (next t.source (ps i) o (answer e.world o (c.outcome o)).1)) tr c.drawn.1 := by
  refine ⟨drawn_perform hdraws, fun t' hget => ?_, each_perform (fun j t' _ hj hm t1 hsub => ?_) ht fun _ => hsub⟩
  · cases o with
    | newMeeting => exact absurd (h.keys _ (Option.isSome_iff_exists.mpr ⟨t', hget⟩)) hfresh
    | _ => cases hdraws
  · exact absurd (h.drawn j _ ⟨t', t1, hj, hsub, hm⟩) hfresh

end Transcript

/-! ### What a job says of its meeting -/

/-- What the job is for leads to the transcript. -/
def Leads (e : EngineState) (ps : Progresses) (tr : Transcript) : Source → Prop
  | .process (.transcript _ t') => t' = tr
  | .process (.audio _ _) => False
  | .reprocess m => Kept e ps tr m

/-- A task of the job: what it is for and its meeting lead to the transcript. -/
structure OwnTask (e : EngineState) (ps : Progresses) (tr : Transcript) (t : Running) (p : Progress) : Prop where
  source : Leads e ps tr t.source
  has : ∀ m, p.phase.Has m → Holds e ps tr m
  past : ∀ m, Phase.Past m p.phase → (Table.get m e.world.store.transcripts).isSome

/-- **Whatever the job says of its meeting** leads to the transcript. -/
structure Owns (e : EngineState) (ps : Progresses) (own : JobId) (tr : Transcript) : Prop where
  issued : own ∈ e.issued
  tasks : Each (fun _ t p => t.jobId = own → OwnTask e ps tr t p) e ps
  names : Names e.world.jobs own (Holds e ps tr)
  recovering : ∀ job, .job job ∈ e.recovering → job.id = own → ∀ m, job.meetingId = some m → Holds e ps tr m

section Job
variable {cfg : Config} {e e' : EngineState} {ps ps' : Progresses} {a : Action} {tr : Transcript} {m : MeetingId}
  {i : ℕ} {t : Running} {p : Progress} {β : Type} {o : Op β} {k : β → Routine (Except PipelineError MeetingId)}
  {c : Choice} {own jobId : JobId} {source : Source}

theorem Leads.submits (h : Leads e ps tr source) {t' : Transcript} (ht' : source.Submits t') : t' = tr := by
  cases source with
  | process input =>
    cases input with
    | transcript title t1 => exact Eq.trans ht' h
    | audio title path => exact h.elim
  | reprocess id => exact ht'.elim

theorem Leads.mono (h : Leads e ps tr source) (hkept : ∀ m, Kept e ps tr m → Kept e' ps' tr m) :
    Leads e' ps' tr source := by
  cases source with
  | process input => cases input <;> exact h
  | reprocess id => exact hkept id h

theorem OwnTask.step (he : Evolves cfg e ps a e' ps') (h : OwnTask e ps tr t p) : OwnTask e' ps' tr t p :=
  ⟨h.source.mono fun _ => kept_step he, fun m hm => holds_step he (h.has m hm),
    fun m hm => stored_step he (h.past m hm)⟩

/-- A step of a task of the job. -/
theorem OwnTask.perform (h : OwnTask e ps tr t (ps i)) (ho : Orderly e ps) (ht : e.tasks[i]? = some t)
    (hp : permits t.source t.jobId (ps i) o) (hfresh : draws o = true → c.drawn.1 ∉ e.issued)
    (he : Evolves cfg e ps (.step i c) (e.perform i t o k c)
      (Function.update ps i (next t.source (ps i) o (answer e.world o (c.outcome o)).1))) :
    OwnTask (e.perform i t o k c)
      (Function.update ps i (next t.source (ps i) o (answer e.world o (c.outcome o)).1)) tr
      { t with rest := k (answer e.world o (c.outcome o)).1 }
      (next t.source (ps i) o (answer e.world o (c.outcome o)).1) := by
  refine ⟨(h.step he).source, fun m hm => ?_, fun m hm => ?_⟩
  · rcases has_next hp hm with hm | ⟨hdraws, rfl⟩ | ⟨id, meeting, hsource, hget, rfl⟩
    · exact (h.step he).has m hm
    · exact holds_drawn ho ht hp hdraws (hfresh hdraws) fun t' => h.source.submits
    · have hs := h.source
      rw [hsource] at hs
      rw [ho.keyed id meeting hget]
      exact holds_step he (Kept.holds hs)
  · rcases past_next hp (fun id hsource hm => (ho.tasks i t ht).loaded id m hsource hm) hm with hm | hm
    · exact (h.step he).past m hm
    · exact hm

/-- What a run makes of its job leads to the transcript. -/
theorem OwnTask.updates (h : OwnTask e ps tr t p) {f : Job → Job} (hf : p.Updates t.source f) {job : Job}
    (hm : (f job).meetingId = some m) : job.meetingId = some m ∨ Holds e ps tr m := by
  rcases (hf job).2 m hm with hm | hsource | hhas
  · exact Or.inl hm
  · have hs := h.source
    rw [hsource] at hs
    exact Or.inr (Kept.holds hs)
  · exact Or.inr (h.has m hhas)

/-- **The job keeps to its transcript**, whatever the engine does. -/
theorem owns_step (h : Owns e ps own tr) (ho : Orderly e ps) (he : Evolves cfg e ps a e' ps') :
    Owns e' ps' own tr := by
  have hkeep (m : MeetingId) : Holds e ps tr m → Holds e' ps' tr m := holds_step he
  have hnames : Names e.world.jobs own (Holds e' ps' tr) := h.names.mono hkeep
  have htasks : Each (fun _ t p => t.jobId = own → OwnTask e' ps' tr t p) e ps :=
    fun j t hj hown => (h.tasks j t hj hown).step he
  have hrecovering (job : Job) (hjob : .job job ∈ e.recovering) (hown : job.id = own) (m : MeetingId)
      (hm : job.meetingId = some m) : Holds e' ps' tr m := hkeep m (h.recovering job hjob hown m hm)
  have hhead {job : Job} {rest : List Recovery} (hq : e.recovering = .job job :: rest) :
      .job job ∈ e.recovering := by
    simp [hq]
  have he' := he
  cases he with
  | task ht hrest hpermits hfresh =>
    rename_i i t β o k c
    refine ⟨subset_perform h.issued, ?_, ?_, hrecovering⟩
    · exact each_perform (fun j t' _ hj => htasks j t' hj) ht
        fun hown => (h.tasks i t ht hown).perform ho ht hpermits hfresh he'
    · rcases jobs_answer (w := e.world) (c := c.outcome o) hpermits with heq | ⟨f, written, hf, heq⟩
      · exact heq ▸ hnames
      · rw [show (e.perform i t o k c).world.jobs = _ from heq]
        refine hnames.update ho.known (fun job => (hf job).1) fun hown job m hm => ?_
        exact ((h.tasks i t ht hown).updates hf hm).imp id (hkeep m)
  | process hfresh | reprocess hfresh =>
    refine ⟨List.mem_cons_of_mem _ h.issued, ?_, hnames.create, hrecovering⟩
    exact each_spawn (e := e.accept _ _ _) htasks fun hown => absurd h.issued (hown ▸ hfresh)
  | cancel => exact ⟨h.issued, htasks, hnames.requestCancel, hrecovering⟩
  | crash =>
    have hrows : Names (World.rebooted e.world).jobs own _ := ⟨by simp [World.rebooted], hnames.row⟩
    refine ⟨h.issued, by simp [Each, EngineState.crash], hrows, ?_⟩
    intro job hjob hown m hm
    obtain ⟨row, hrow, rfl⟩ := recovering_crash hjob
    exact hnames.row row hrow hown m hm
  | interrupted hq =>
    refine ⟨h.issued, htasks, ?_, fun job hjob => hrecovering job (mem_tail hq hjob)⟩
    rw [show _ = e.world.jobs from (recoverStatus_frame e _ _).2.2.1]
    exact hnames
  | closed hq =>
    rename_i job rest c error
    exact ⟨h.issued, htasks,
      hnames.persist { job with status := .failed, error := some error } fun hown => hrecovering job (hhead hq) hown,
      fun job hjob => hrecovering job (mem_tail hq hjob)⟩
  | resumed hq hid hstored hw =>
    rename_i job id rest c w
    subst hw
    refine ⟨h.issued, ?_, hnames.reinsert (hrecovering job (hhead hq)),
      fun job hjob => hrecovering job (mem_tail hq hjob)⟩
    refine each_spawn (Q := fun _ t p => t.jobId = own → OwnTask _ _ tr t p)
      (e := { e with world := { e.world with jobs := e.world.jobs.reinsert job.resumed c.written } }) htasks ?_
    exact fun hown => ⟨⟨hrecovering job (hhead hq) hown id hid, hstored⟩, fun _ hm => hm.elim, fun _ hm => hm.elim⟩

/-- **A job just accepted** keeps to the transcript it is given. -/
theorem owns_start {title : Option Text} {written : Bool} (ho : Orderly e ps) (hfresh : own ∉ e.issued) :
    Owns ((e.accept own .process written).spawn cfg own (.process (.transcript title tr)))
      (Function.update ps e.tasks.length Phase.opening.going) own tr := by
  refine ⟨List.mem_cons_self, ?_, (ho.known.names hfresh).create, ?_⟩
  · refine each_spawn (Q := fun _ t p => t.jobId = own → OwnTask _ _ tr t p) (e := e.accept own .process written)
      ?_ ?_
    · exact fun j t hj hown => absurd (ho.tasks j t hj).job (hown ▸ hfresh)
    · exact fun _ => ⟨rfl, fun _ hm => hm.elim, fun _ hm => hm.elim⟩
  · exact fun job hjob hown => absurd (ho.recovering job hjob) (hown ▸ hfresh)

end Job

/-! ### What is sent -/

/-- The events an action sends. -/
def sent (e e' : EngineState) : List Event := e'.world.events.drop e.world.events.length

section Sent
variable {cfg : Config} {e e' : EngineState} {ps ps' : Progresses} {a : Action} {tr : Transcript} {m : MeetingId}
  {own : JobId} {event : Event}

/-- An event is of a job just accepted, or tells of a run. -/
theorem sent_cases (he : Evolves cfg e ps a e' ps') (h : event ∈ sent e e') :
    (∃ j ∈ e'.issued, event = .jobCreated j) ∨ ∃ i t, e.tasks[i]? = some t ∧ (ps i).Tells t.jobId event := by
  unfold sent at h
  cases he with
  | task ht hrest hpermits hfresh =>
    rename_i i t β o k c
    rcases events_answer (w := e.world) (c := c.outcome o) hpermits with heq | ⟨event', htells, heq⟩
    · rw [show (e.perform i t o k c).world.events = _ from heq, List.drop_length] at h
      exact absurd h List.not_mem_nil
    · rw [show (e.perform i t o k c).world.events = _ from heq, List.drop_left, List.mem_singleton] at h
      exact Or.inr ⟨i, t, ht, h ▸ htells⟩
  | process hfresh | reprocess hfresh =>
    simp only [EngineState.spawn, EngineState.accept, List.drop_left, List.mem_singleton] at h
    exact Or.inl ⟨_, List.mem_cons_self, h⟩
  | interrupted hq =>
    rw [show _ = e.world.events from (recoverStatus_frame e _ _).2.2.2, List.drop_length] at h
    exact absurd h List.not_mem_nil
  | crash => simp [EngineState.crash, World.rebooted] at h
  | resumed hq hid hstored hw =>
    subst hw
    simp [EngineState.spawn] at h
  | cancel | closed hq => simp [EngineState.close] at h

theorem jobId_of_tells {p : Progress} {jobId : JobId} (h : p.Tells jobId event) : event.jobId = jobId := by
  cases event with
  | jobCompleted _ _ | jobFailed _ _ => exact h.1
  | _ => exact h

theorem issued_step (he : Evolves cfg e ps a e' ps') : e.issued ⊆ e'.issued := by
  cases he with
  | task ht hrest hpermits hfresh => exact subset_perform
  | process hfresh | reprocess hfresh => exact List.subset_cons_self _ _
  | _ => exact List.Subset.refl _

/-- What is sent is of a job that is known. -/
theorem sent_known (h : Orderly e ps) (he : Evolves cfg e ps a e' ps') (hsent : event ∈ sent e e') :
    event.jobId ∈ e'.issued := by
  rcases sent_cases he hsent with ⟨j, hj, rfl⟩ | ⟨i, t, ht, htells⟩
  · exact hj
  · rw [jobId_of_tells htells]
    exact issued_step he (h.tasks i t ht).job

/-- **A job that says it is completed** names a meeting under which its transcript is stored. -/
theorem sent_completed (h : Owns e ps own tr) (he : Evolves cfg e ps a e' ps')
    (hsent : .jobCompleted own m ∈ sent e e') : Kept e' ps' tr m := by
  rcases sent_cases he hsent with ⟨j, -, heq⟩ | ⟨i, t, ht, hown, -, meeting, ir, hph, rfl⟩
  · cases heq
  · have hown := h.tasks i t ht hown.symm
    refine ⟨holds_step he (hown.has _ ?_), stored_step he (hown.past _ ?_)⟩
    · rw [hph]
      rfl
    · rw [hph]
      rfl

end Sent

end Notely.Engine.Custody
