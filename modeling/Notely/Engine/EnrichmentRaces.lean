import Notely.Engine.Pool

/-! # Two enrichments of one meeting

Two runs that compute the enrichment of one meeting again each write the representation, the minutes and the
meeting with its participants, one after the other, and nothing keeps their writes apart. What is stored in
the end is what each of the three was written with last.

* `Write`, `last`: the writes of the two runs in order, and the last of a kind.
* `Inv`: the tables as the writes left them, and each run as its own writes say.
* `agreement_iff`: when the three agree after both runs have finished. -/

namespace Notely.Engine.EnrichmentRaces

open Notely.Lib Notely.Lib.Programs Notely.Lib.Monitors Notely.Engine.Domain Notely.Engine.Jobs
open Notely.Engine.Orchestrator Notely.Engine.Analysis Notely.Engine.Markdown Notely.Engine.Answers
open Notely.Engine.RunPhases Notely.Engine.Pool
open Notely.Lib.Strings (Text)

/-! ### The writes -/

/-- A write of task `i`: its representation, its minutes, or its meeting. -/
inductive Write
  | ir (i : ℕ) (ir : MeetingIr)
  | mom (i : ℕ)
  | meeting (i : ℕ)
  deriving DecidableEq

/-- The writes of an operation. -/
def writes {α : Type} (i : ℕ) : Op α → List Write
  | .saveMeetingIr _ ir => [.ir i ir]
  | .saveMom _ _ => [.mom i]
  | .saveMeeting _ => [.meeting i]
  | _ => []

/-- The writes of an action of the engine. -/
def writesOf (e : EngineState) : Action → List Write
  | .step i c =>
    match e.tasks[i]? with
    | none => []
    | some t =>
      match t.rest with
      | .ret _ => []
      | .call o _ => if c.fails = none then writes i o else []
  | _ => []

/-- The last value found in a list. -/
def last {β : Type} (f : Write → Option β) (l : List Write) : Option β := (l.filterMap f).getLast?

section Last
variable {β : Type} {f : Write → Option β} {l : List Write} {w : Write} {b : β}

theorem last_append_some (h : f w = some b) : last f (l ++ [w]) = some b := by
  simp [last, h]

theorem last_append_none (h : f w = none) : last f (l ++ [w]) = last f l := by
  simp [last, h]

theorem last_eq_none : last f l = none ↔ ∀ w ∈ l, f w = none := by
  simp [last]

theorem last_of_mem (hw : w ∈ l) (hf : f w = some b) : ∃ b', last f l = some b' := by
  cases hlast : last f l with
  | none =>
    have hnone : f w = none := last_eq_none.mp hlast w hw
    simp [hf] at hnone
  | some b' => exact ⟨b', rfl⟩

theorem mem_of_last (h : last f l = some b) : ∃ w ∈ l, f w = some b :=
  List.mem_filterMap.mp (List.mem_of_getLast? h)

end Last

/-- The task and the representation of a write. -/
def Write.irBy : Write → Option (ℕ × MeetingIr)
  | .ir i r => some (i, r)
  | _ => none

/-- The task that wrote minutes. -/
def Write.momBy : Write → Option ℕ
  | .mom i => some i
  | _ => none

/-- The task that wrote the meeting. -/
def Write.meetingBy : Write → Option ℕ
  | .meeting i => some i
  | _ => none

/-- The representation that task `i` wrote. -/
def Write.irOf (i : ℕ) : Write → Option MeetingIr
  | .ir j r => if j = i then some r else none
  | _ => none

/-! ### Agreement -/

/-- The stored minutes are the rendering of the stored representation with the stored title, and the stored
participants are its participants. -/
def Agrees (w : World) (m : MeetingId) : Prop :=
  ∀ meeting, Table.get m w.store.meetings = some meeting →
    Table.get m w.store.moms = (Table.get m w.store.irs).map (renderWithTitle · meeting.title) ∧
    ∀ ir, Table.get m w.store.irs = some ir → meeting.participants = ir.participants

/-- The stored title. -/
def titleOf (w : World) (m : MeetingId) : Text := ((Table.get m w.store.meetings).map Meeting.title).getD []

/-- **When the last writes agree**: the run that wrote its representation last also wrote its minutes and its
meeting last, or the other run's representation renders to the same minutes, and has the same participants. If
there is no write, the meeting agreed before. -/
def LastWritesAgree (w : World) (m : MeetingId) (l : List Write) : Prop :=
  match last Write.irBy l with
  | none => Agrees w m
  | some (i, ir) =>
    (∀ j, last Write.momBy l = some j → j = i ∨ ∀ ir', last (Write.irOf j) l = some ir' →
      renderWithTitle ir' (titleOf w m) = renderWithTitle ir (titleOf w m)) ∧
    ∀ j, last Write.meetingBy l = some j → j = i ∨ ∀ ir', last (Write.irOf j) l = some ir' →
      ir'.participants = ir.participants

/-! ### The tables and the writes -/

/-- What the phase of task `i` says of the writes so far. -/
def Told (m : MeetingId) (title : Text) (l : List Write) (i : ℕ) : Phase → Prop
  | .opening => ∀ ir, .ir i ir ∉ l
  | .drawn _ => False
  | .recorded meeting | .captured meeting => (meeting.id = m ∧ meeting.title = title) ∧ ∀ ir, .ir i ir ∉ l
  | .analyzed meeting ir => (meeting.id = m ∧ meeting.title = title) ∧ last (Write.irOf i) l = some ir
  | .rendered meeting ir => (meeting.id = m ∧ meeting.title = title) ∧ last (Write.irOf i) l = some ir ∧ .mom i ∈ l
  | .finished meeting ir =>
    (meeting.id = m ∧ meeting.title = title) ∧ last (Write.irOf i) l = some ir ∧ .mom i ∈ l ∧ .meeting i ∈ l

/-- A task: its run is a retry of `m`, has not found the flag raised, and has failed at most before it wrote. -/
structure TaskInv (m : MeetingId) (title : Text) (l : List Write) (i : ℕ) (t : Running) (p : Progress) : Prop where
  source : t.source = .reprocess m
  told : Told m title l i p.phase
  calm : p.stopped = false
  broken : p.broken = true → p.phase.Unwritten

/-- The tables of `w'`, after the writes `l` since `w`. -/
structure TablesInv (w : World) (m : MeetingId) (l : List Write) (w' : World) : Prop where
  irs : Table.get m w'.store.irs = ((last Write.irBy l).map Prod.snd).or (Table.get m w.store.irs)
  moms : match last Write.momBy l with
    | none => Table.get m w'.store.moms = Table.get m w.store.moms
    | some j => ∃ ir, last (Write.irOf j) l = some ir ∧
        Table.get m w'.store.moms = some (renderWithTitle ir (titleOf w m))
  meetings : match last Write.meetingBy l with
    | none => Table.get m w'.store.meetings = Table.get m w.store.meetings
    | some j => ∃ ir meeting, last (Write.irOf j) l = some ir ∧
        Table.get m w'.store.meetings = some meeting ∧ meeting.participants = ir.participants
  title : ∀ meeting, Table.get m w'.store.meetings = some meeting →
    meeting.id = m ∧ meeting.title = titleOf w m

/-- **The invariant** of two runs that started in `w`, after the writes `l`. -/
structure Inv (w : World) (m : MeetingId) (e : EngineState) (l : List Write) (ps : Progresses) : Prop where
  plans : Plans e ps
  tasks : Each (TaskInv m (titleOf w m) l) e ps
  calm : Each (fun _ t _ => e.world.jobs.isCancelled t.jobId = false) e ps
  tables : TablesInv w m l e.world
  moms : ∀ i, .mom i ∈ l → ∃ ir, .ir i ir ∈ l
  meetings : ∀ i, .meeting i ∈ l → ∃ ir, .ir i ir ∈ l
  known : ∀ i ir, .ir i ir ∈ l → (e.tasks[i]?).isSome

section Writes
variable {w w' : World} {m : MeetingId} {title : Text} {l : List Write} {i j : ℕ} {r : MeetingIr} {a : Write}

/-- A write of another task. -/
theorem last_irOf_other (h : ∀ r, a ≠ .ir j r) : last (Write.irOf j) (l ++ [a]) = last (Write.irOf j) l := by
  refine last_append_none ?_
  cases a with
  | ir k r =>
    have hk : k ≠ j := fun hk => h r (by rw [hk])
    simp [Write.irOf, hk]
  | mom _ | meeting _ => rfl

theorem mem_of_irOf (h : last (Write.irOf i) l = some r) : .ir i r ∈ l := by
  obtain ⟨a, ha, hr⟩ := mem_of_last h
  cases a with
  | ir k r' =>
    simp only [Write.irOf] at hr
    split_ifs at hr with hk
    obtain rfl := Option.some.inj hr
    rwa [← hk]
  | mom _ | meeting _ => simp [Write.irOf] at hr

theorem told_append {ph : Phase} (h : Told m title l i ph) (ha : ∀ r, a ≠ .ir i r) :
    Told m title (l ++ [a]) i ph := by
  have hno : (∀ r, .ir i r ∉ l) → ∀ r, .ir i r ∉ l ++ [a] := fun hl r hr => by
    rcases List.mem_append.mp hr with hr | hr
    · exact hl r hr
    · exact ha r (List.mem_singleton.mp hr).symm
  have hmem {b : Write} : b ∈ l → b ∈ l ++ [a] := List.mem_append_left [a]
  cases ph with
  | opening => exact hno h
  | drawn _ => exact h
  | recorded _ | captured _ => exact ⟨h.1, hno h.2⟩
  | analyzed _ _ => exact ⟨h.1, (last_irOf_other ha).trans h.2⟩
  | rendered _ _ => exact ⟨h.1, (last_irOf_other ha).trans h.2.1, hmem h.2.2⟩
  | finished _ _ => exact ⟨h.1, (last_irOf_other ha).trans h.2.1, hmem h.2.2.1, hmem h.2.2.2⟩

/-- The tables of the meeting after a step that writes none of the three. -/
theorem TablesInv.same (h : TablesInv w m l w') {w'' : World}
    (hirs : Table.get m w''.store.irs = Table.get m w'.store.irs)
    (hmoms : Table.get m w''.store.moms = Table.get m w'.store.moms)
    (hmeet : Table.get m w''.store.meetings = Table.get m w'.store.meetings) : TablesInv w m l w'' := by
  refine ⟨?_, ?_, ?_, ?_⟩
  · rw [hirs, h.irs]
  · rw [hmoms]
    exact h.moms
  · rw [hmeet]
    exact h.meetings
  · rw [hmeet]
    exact h.title

theorem mem_of_momBy (h : last Write.momBy l = some j) : .mom j ∈ l := by
  obtain ⟨a, ha, hfa⟩ := mem_of_last h
  cases a with
  | mom k =>
    simp only [Write.momBy, Option.some.injEq] at hfa
    exact hfa ▸ ha
  | ir _ _ | meeting _ => simp [Write.momBy] at hfa

theorem mem_of_meetingBy (h : last Write.meetingBy l = some j) : .meeting j ∈ l := by
  obtain ⟨a, ha, hfa⟩ := mem_of_last h
  cases a with
  | meeting k =>
    simp only [Write.meetingBy, Option.some.injEq] at hfa
    exact hfa ▸ ha
  | ir _ _ | mom _ => simp [Write.meetingBy] at hfa

/-- The representation of a task that has written none. -/
theorem TablesInv.ir (h : TablesInv w m l w') (hmomsIr : ∀ j, .mom j ∈ l → ∃ r, .ir j r ∈ l)
    (hmeetIr : ∀ j, .meeting j ∈ l → ∃ r, .ir j r ∈ l) (hno : ∀ r, .ir i r ∉ l) {w'' : World}
    (hirs : Table.get m w''.store.irs = some r) (hmoms : w''.store.moms = w'.store.moms)
    (hmeet : w''.store.meetings = w'.store.meetings) : TablesInv w m (l ++ [.ir i r]) w'' := by
  have hother {j : ℕ} (hj : ∃ r, .ir j r ∈ l) :
      last (Write.irOf j) (l ++ [.ir i r]) = last (Write.irOf j) l := by
    refine last_irOf_other fun r' he => ?_
    obtain ⟨r1, hr1⟩ := hj
    cases he
    exact hno r1 hr1
  refine ⟨?_, ?_, ?_, ?_⟩
  · rw [last_append_some (f := Write.irBy) rfl, hirs]
    rfl
  · rw [last_append_none (f := Write.momBy) rfl, hmoms]
    have hold := h.moms
    cases hj : last Write.momBy l with
    | none => simpa only [hj] using hold
    | some j =>
      rw [hj] at hold
      obtain ⟨ir, hir, hm⟩ := hold
      exact ⟨ir, (hother (hmomsIr j (mem_of_momBy hj))).trans hir, hm⟩
  · rw [last_append_none (f := Write.meetingBy) rfl, hmeet]
    have hold := h.meetings
    cases hj : last Write.meetingBy l with
    | none => simpa only [hj] using hold
    | some j =>
      rw [hj] at hold
      obtain ⟨ir, meeting, hir, hm⟩ := hold
      exact ⟨ir, meeting, (hother (hmeetIr j (mem_of_meetingBy hj))).trans hir, hm⟩
  · rw [hmeet]
    exact h.title

/-- The minutes of a task that has written its representation. -/
theorem TablesInv.mom (h : TablesInv w m l w') (hir : last (Write.irOf i) l = some r) {w'' : World}
    (hirs : w''.store.irs = w'.store.irs)
    (hmoms : Table.get m w''.store.moms = some (renderWithTitle r (titleOf w m)))
    (hmeet : w''.store.meetings = w'.store.meetings) : TablesInv w m (l ++ [.mom i]) w'' := by
  have hother (j : ℕ) : last (Write.irOf j) (l ++ [.mom i]) = last (Write.irOf j) l :=
    last_irOf_other fun _ => by simp
  refine ⟨?_, ?_, ?_, ?_⟩
  · rw [last_append_none (f := Write.irBy) rfl, hirs]
    exact h.irs
  · rw [last_append_some (f := Write.momBy) rfl]
    exact ⟨r, (hother i).trans hir, hmoms⟩
  · rw [last_append_none (f := Write.meetingBy) rfl, hmeet]
    simp only [hother]
    exact h.meetings
  · rw [hmeet]
    exact h.title

/-- The meeting of a task that has written its representation. -/
theorem TablesInv.meeting (h : TablesInv w m l w') {w'' : World} (hir : last (Write.irOf i) l = some r)
    (meeting : Meeting) (hirs : w''.store.irs = w'.store.irs) (hmoms : w''.store.moms = w'.store.moms)
    (hmeet : Table.get m w''.store.meetings = some meeting) (hparts : meeting.participants = r.participants)
    (htitle : meeting.id = m ∧ meeting.title = titleOf w m) : TablesInv w m (l ++ [.meeting i]) w'' := by
  have hother (j : ℕ) : last (Write.irOf j) (l ++ [.meeting i]) = last (Write.irOf j) l :=
    last_irOf_other fun _ => by simp
  refine ⟨?_, ?_, ?_, fun meeting' hm => ?_⟩
  · rw [last_append_none (f := Write.irBy) rfl, hirs]
    exact h.irs
  · rw [last_append_none (f := Write.momBy) rfl, hmoms]
    simp only [hother]
    exact h.moms
  · rw [last_append_some (f := Write.meetingBy) rfl]
    exact ⟨r, meeting, (hother i).trans hir, hmeet, hparts⟩
  · obtain rfl : meeting = meeting' := Option.some.inj (hmeet.symm.trans hm)
    exact htitle

end Writes

/-! ### A step -/

section Step
variable {w : World} {m : MeetingId} {e : EngineState} {l : List Write} {ps : Progresses} {i : ℕ} {t : Running}
  {α : Type} {o : Op α} {c : Choice}

/-- Only a task that has rendered its minutes writes its meeting. -/
theorem rendered_of_permits {m' : Meeting} (htask : TaskInv m (titleOf w m) l i t (ps i))
    (hp : permits t.source t.jobId (ps i) (.saveMeeting m')) :
    ∃ meeting r, (ps i).phase = .rendered meeting r ∧ m' = { meeting with participants := r.participants } := by
  have htold := htask.told
  obtain ⟨-, hw⟩ := hp
  cases hph : (ps i).phase with
  | rendered meeting r =>
    rw [hph] at hw
    exact ⟨meeting, r, rfl, hw⟩
  | drawn _ =>
    rw [hph] at htold
    exact htold.elim
  | _ =>
    rw [hph] at hw
    exact hw.elim

/-- What is left of the invariant of task `i` and of the tables by its operation `o`. -/
def Leaves (w : World) (m : MeetingId) (e : EngineState) (l : List Write) (p : Progress) (i : ℕ) (t : Running)
    (o : Op α) (c : Choice) : Prop :=
  TaskInv m (titleOf w m) (l ++ writes i o) i t (next t.source p o (answer e.world o (c.outcome o)).1) ∧
    TablesInv w m (l ++ writes i o) (answer e.world o (c.outcome o)).2

theorem own_saveMeetingIr {id : MeetingId} {r : MeetingIr} (h : Inv w m e l ps)
    (htask : TaskInv m (titleOf w m) l i t (ps i))
    (hp : permits t.source t.jobId (ps i) (.saveMeetingIr id r)) (hc : c.fails = none) :
    Leaves w m e l (ps i) i t (.saveMeetingIr id r) c := by
  have hok : (answer e.world (.saveMeetingIr id r) (c.outcome (.saveMeetingIr id r))).1 = .ok () :=
    write_eq_ok.mpr hc
  have hworld := write_world_of_ok hok
  obtain ⟨hopen, meeting, hph, rfl⟩ := hp
  obtain ⟨hsource, htold, hcalm, -⟩ := htask
  rw [hph] at htold
  obtain ⟨⟨rfl, htitle⟩, hno⟩ := htold
  unfold Leaves
  rw [hok]
  refine ⟨⟨hsource, ?_, hcalm, fun hb => ?_⟩, ?_⟩
  · simp only [writes, next, Progress.after, hph, Phase.analyze, Told]
    exact ⟨⟨trivial, htitle⟩, last_append_some (by simp [Write.irOf])⟩
  · have hbad : (ps i).broken = true := hb
    simp [hopen.2.1] at hbad
  · refine h.tables.ir h.moms h.meetings hno ?_ ?_ ?_
    · exact (congrArg (fun w => Table.get _ w.store.irs) hworld).trans Table.get_put_self
    · exact congrArg (fun w => w.store.moms) hworld
    · exact congrArg (fun w => w.store.meetings) hworld

theorem own_saveMom {id : MeetingId} {mom : Text} (h : Inv w m e l ps)
    (htask : TaskInv m (titleOf w m) l i t (ps i))
    (hp : permits t.source t.jobId (ps i) (.saveMom id mom)) (hc : c.fails = none) :
    Leaves w m e l (ps i) i t (.saveMom id mom) c := by
  have hok : (answer e.world (.saveMom id mom) (c.outcome (.saveMom id mom))).1 = .ok () := write_eq_ok.mpr hc
  have hworld := write_world_of_ok hok
  obtain ⟨-, meeting, r, hph, rfl, rfl⟩ := hp
  obtain ⟨hsource, htold, hcalm, hbroken⟩ := htask
  rw [hph] at htold
  obtain ⟨⟨rfl, htitle⟩, hir⟩ := htold
  unfold Leaves
  rw [hok]
  refine ⟨⟨hsource, ?_, hcalm, fun hb => ?_⟩, ?_⟩
  · simp only [writes, next, Progress.after, hph, Phase.render, Told]
    refine ⟨⟨trivial, htitle⟩, (last_irOf_other fun _ => by simp).trans hir, ?_⟩
    exact List.mem_append_right _ (List.mem_singleton.mpr rfl)
  · have hu := hbroken hb
    rw [hph] at hu
    exact hu.elim
  · refine h.tables.mom hir ?_ ?_ ?_
    · exact congrArg (fun w => w.store.irs) hworld
    · rw [← htitle]
      exact (congrArg (fun w => Table.get _ w.store.moms) hworld).trans Table.get_put_self
    · exact congrArg (fun w => w.store.meetings) hworld

theorem own_saveMeeting {m' : Meeting} (h : Inv w m e l ps) (htask : TaskInv m (titleOf w m) l i t (ps i))
    (hp : permits t.source t.jobId (ps i) (.saveMeeting m')) (hc : c.fails = none) :
    Leaves w m e l (ps i) i t (.saveMeeting m') c := by
  have hok : (answer e.world (.saveMeeting m') (c.outcome (.saveMeeting m'))).1 = .ok () := write_eq_ok.mpr hc
  have hworld := write_world_of_ok hok
  obtain ⟨meeting, r, hph, rfl⟩ := rendered_of_permits htask hp
  obtain ⟨hsource, htold, hcalm, hbroken⟩ := htask
  rw [hph] at htold
  obtain ⟨⟨rfl, htitle⟩, hir, hmom⟩ := htold
  unfold Leaves
  rw [hok]
  refine ⟨⟨hsource, ?_, hcalm, fun hb => ?_⟩, ?_⟩
  · simp only [writes, next, Progress.after, hph, Phase.written, Told]
    refine ⟨⟨trivial, htitle⟩, (last_irOf_other fun _ => by simp).trans hir, ?_, ?_⟩
    · exact List.mem_append_left _ hmom
    · exact List.mem_append_right _ (List.mem_singleton.mpr rfl)
  · have hu := hbroken hb
    rw [hph] at hu
    exact hu.elim
  · refine h.tables.meeting hir { meeting with participants := r.participants } ?_ ?_ ?_ rfl ⟨rfl, htitle⟩
    · exact congrArg (fun w => w.store.irs) hworld
    · exact congrArg (fun w => w.store.moms) hworld
    · exact (congrArg (fun w => Table.get _ w.store.meetings) hworld).trans Table.get_put_self

theorem own_getMeeting {id : MeetingId} (h : Inv w m e l ps) (htask : TaskInv m (titleOf w m) l i t (ps i))
    (hp : permits t.source t.jobId (ps i) (.getMeeting id)) (hc : c.fails = none) :
    Leaves w m e l (ps i) i t (.getMeeting id) c := by
  obtain ⟨hsource, htold, hcalm, -⟩ := htask
  obtain ⟨-, hph, hsrc⟩ := hp
  obtain rfl : m = id := by simpa [hsource] using hsrc
  have hget : (answer e.world (.getMeeting m) (c.outcome (.getMeeting m))).1 =
      .ok (Table.get m e.world.store.meetings) := read_eq_ok.mpr ⟨hc, rfl⟩
  have hw : (answer e.world (.getMeeting m) (c.outcome (.getMeeting m))).2 = e.world := read_world
  simp only [Leaves, writes, List.append_nil]
  rw [hget, hw]
  rw [hph] at htold
  refine ⟨?_, h.tables⟩
  cases hm : Table.get m e.world.store.meetings with
  | none =>
    refine ⟨hsource, ?_, hcalm, ?_⟩
    · simpa [next, Progress.found, Progress.after, hph] using htold
    · simp [next, Progress.found, Progress.after, hph, Phase.Unwritten]
  | some meeting => exact ⟨hsource, ⟨h.tables.title meeting hm, htold⟩, hcalm, fun _ => trivial⟩

theorem own_getTranscript {id : MeetingId} (h : Inv w m e l ps) (htask : TaskInv m (titleOf w m) l i t (ps i))
    (hp : permits t.source t.jobId (ps i) (.getTranscript id)) (hc : c.fails = none) :
    Leaves w m e l (ps i) i t (.getTranscript id) c := by
  obtain ⟨hsource, htold, hcalm, -⟩ := htask
  obtain ⟨-, hsrc, meeting, hph⟩ := hp
  have hget : (answer e.world (.getTranscript id) (c.outcome (.getTranscript id))).1 =
      .ok (Table.get id e.world.store.transcripts) := read_eq_ok.mpr ⟨hc, rfl⟩
  have hw : (answer e.world (.getTranscript id) (c.outcome (.getTranscript id))).2 = e.world := read_world
  simp only [Leaves, writes, List.append_nil]
  rw [hget, hw]
  refine ⟨?_, h.tables⟩
  cases hm : Table.get id e.world.store.transcripts with
  | none =>
    refine ⟨hsource, htold, hcalm, ?_⟩
    simp [next, Progress.found, Progress.after, hph, Phase.Unwritten]
  | some tr =>
    rw [hph] at htold
    refine ⟨hsource, ?_, hcalm, ?_⟩
    · simpa [next, Progress.found, Progress.after, hph, Phase.capture, Told] using htold
    · simp [next, Progress.found, Progress.after, hph, Phase.capture, Phase.Unwritten]

theorem own_saveProcessingStatus {id : MeetingId} {st : ProcessingStatus} (h : Inv w m e l ps)
    (htask : TaskInv m (titleOf w m) l i t (ps i)) (hc : c.fails = none) :
    Leaves w m e l (ps i) i t (.saveProcessingStatus id st) c := by
  obtain ⟨hsource, htold, hcalm, hbroken⟩ := htask
  have hok : (answer e.world (.saveProcessingStatus id st) (c.outcome (.saveProcessingStatus id st))).1 = .ok () :=
    write_eq_ok.mpr hc
  have hworld := write_world_of_ok hok
  simp only [Leaves, writes, List.append_nil]
  refine ⟨⟨hsource, htold, hcalm, hbroken⟩, h.tables.same ?_ ?_ ?_⟩
  · exact congrArg (fun w => Table.get m w.store.irs) hworld
  · exact congrArg (fun w => Table.get m w.store.moms) hworld
  · exact congrArg (fun w => Table.get m w.store.meetings) hworld

/-- **What a task's operation leaves** of its invariant and of the tables. -/
theorem own_step (h : Inv w m e l ps) (ht : e.tasks[i]? = some t) (hp : permits t.source t.jobId (ps i) o)
    (hc : c.fails = none) : Leaves w m e l (ps i) i t o c := by
  have htask : TaskInv m (titleOf w m) l i t (ps i) := h.tasks i t ht
  have ⟨hsource, htold, hcalm, hbroken⟩ := htask
  have htables := h.tables
  cases o with
  | saveMeetingIr id r => exact own_saveMeetingIr h htask hp hc
  | saveMom id mom => exact own_saveMom h htask hp hc
  | saveMeeting m' => exact own_saveMeeting h htask hp hc
  | updateJob _ _ | getJob _ | send _ | extractChunk _ _ | synthesize _ _ _ =>
    simp only [Leaves, writes, List.append_nil]
    exact ⟨⟨hsource, htold, hcalm, hbroken⟩, htables.same rfl rfl rfl⟩
  | isCancelled id =>
    obtain ⟨rfl, -, -⟩ := hp
    have hraised : (answer e.world (.isCancelled t.jobId) (c.outcome (.isCancelled t.jobId))).1 = false :=
      h.calm i t ht
    simp only [Leaves, writes, List.append_nil, hraised]
    exact ⟨⟨hsource, htold, hcalm, hbroken⟩, htables.same rfl rfl rfl⟩
  | newMeeting =>
    obtain ⟨-, -, input, hin⟩ := hp
    simp [hsource] at hin
  | getMeeting id => exact own_getMeeting h htask hp hc
  | saveTranscript id tr =>
    obtain ⟨-, hsub, -⟩ := hp
    rw [hsource] at hsub
    exact hsub.elim
  | getTranscript id => exact own_getTranscript h htask hp hc
  | saveProcessingStatus id st => exact own_saveProcessingStatus h htask hc
  | extractAudio _ _ _ | transcribe _ =>
    obtain ⟨-, ⟨meeting, hph⟩, -⟩ := hp
    simp only [Leaves, writes, List.append_nil]
    refine ⟨?_, htables.same rfl rfl rfl⟩
    refine Progress.after_ind (fun _ _ => ⟨hsource, htold, hcalm, hbroken⟩) fun _ _ =>
      ⟨hsource, htold, hcalm, fun _ => ?_⟩
    rw [hph]
    trivial

theorem TaskInv.other {title : Text} {j : ℕ} {t' : Running} {p : Progress} (h : TaskInv m title l j t' p)
    (hij : j ≠ i) : TaskInv m title (l ++ writes i o) j t' p := by
  refine ⟨h.source, ?_, h.calm, h.broken⟩
  cases o with
  | saveMeetingIr id r =>
    refine told_append h.told fun r' he => ?_
    cases he
    exact hij rfl
  | saveMom _ _ | saveMeeting _ => exact told_append h.told fun _ => by simp
  | _ => simpa only [writes, List.append_nil] using h.told

/-- A task writes its minutes and its meeting after its representation. -/
theorem ir_written (h : Inv w m e l ps) (ht : e.tasks[i]? = some t) (hp : permits t.source t.jobId (ps i) o) {j : ℕ}
    (hj : .mom j ∈ l ++ writes i o ∨ .meeting j ∈ l ++ writes i o) : ∃ r, .ir j r ∈ l ++ writes i o := by
  have htask : TaskInv m (titleOf w m) l i t (ps i) := h.tasks i t ht
  have htold := htask.told
  have hold (hj : .mom j ∈ l ∨ .meeting j ∈ l) : ∃ r, .ir j r ∈ l ++ writes i o := by
    obtain ⟨r, hr⟩ := hj.elim (h.moms j) (h.meetings j)
    exact ⟨r, List.mem_append_left _ hr⟩
  have hown {r : MeetingIr} (hji : j = i) (hir : last (Write.irOf i) l = some r) : ∃ r, .ir j r ∈ l ++ writes i o :=
    ⟨r, List.mem_append_left _ (hji ▸ mem_of_irOf hir)⟩
  rw [List.mem_append, List.mem_append] at hj
  cases o with
  | saveMom id mom =>
    obtain ⟨-, meeting, r, hph, -, -⟩ := hp
    rw [hph] at htold
    rcases hj with (hj | hj) | hj | hj
    · exact hold (Or.inl hj)
    · exact hown (by simpa [writes] using hj) htold.2
    · exact hold (Or.inr hj)
    · simp [writes] at hj
  | saveMeeting m' =>
    obtain ⟨meeting, r, hph, -⟩ := rendered_of_permits htask hp
    rw [hph] at htold
    rcases hj with (hj | hj) | hj | hj
    · exact hold (Or.inl hj)
    · simp [writes] at hj
    · exact hold (Or.inr hj)
    · exact hown (by simpa [writes] using hj) htold.2.1
  | _ => exact hold (by simpa [writes] using hj)

/-- **A step of one of the runs.** -/
theorem inv_step {cfg : Config} {e' : EngineState} (h : Inv w m e l ps) (hc : c.fails = none)
    (hs : step cfg e (.step i c) = some e') : ∃ ps', Inv w m e' (l ++ writesOf e (.step i c)) ps' := by
  obtain ⟨ps', hplans, hev⟩ := plans_step h.plans hs
  cases hev with
  | task ht hrest hp hfresh =>
    rename_i t β o k
    have hw : writesOf e (.step i c) = writes i o := by simp [writesOf, ht, hrest, hc]
    obtain ⟨htask, htables⟩ := own_step h ht hp hc
    rw [hw]
    refine ⟨_, hplans, ?_, ?_, htables, fun j hj => ?_, fun j hj => ?_, fun j r hj => ?_⟩
    · exact each_perform (fun j t' hji hj => (h.tasks j t' hj).other hji) ht
        ⟨htask.source, htask.told, htask.calm, htask.broken⟩
    · refine each_perform (fun j t' _ hj => ?_) ht ?_
      · exact isCancelled_answer.trans (h.calm j t' hj)
      · exact isCancelled_answer.trans (h.calm i t ht)
    · exact ir_written h ht hp (Or.inl hj)
    · exact ir_written h ht hp (Or.inr hj)
    · have hlen : (e.perform i t o k c).tasks.length = e.tasks.length := List.length_set
      have hj' : (e.tasks[j]?).isSome := by
        rcases List.mem_append.mp hj with hj | hj
        · exact h.known j r hj
        · cases o with
          | saveMeetingIr id r' =>
            obtain ⟨rfl, -⟩ : j = i ∧ r = r' := by simpa [writes] using hj
            simp [ht]
          | _ => simp [writes] at hj
      simpa [hlen] using hj'

end Step

/-! ### The end of both runs -/

section End
variable {w : World} {m : MeetingId} {e : EngineState} {l : List Write} {ps : Progresses} {i : ℕ} {r : MeetingIr}

theorem irOf_of_irBy (h : last Write.irBy l = some (i, r)) : last (Write.irOf i) l = some r := by
  induction l using List.reverseRecOn with
  | nil => simp [last] at h
  | append_singleton l a ih =>
    cases a with
    | ir k r' =>
      rw [last_append_some (b := (k, r')) rfl] at h
      obtain ⟨rfl, rfl⟩ : k = i ∧ r' = r := by simpa using h
      exact last_append_some (by simp [Write.irOf])
    | mom _ | meeting _ =>
      rw [last_append_none rfl] at h ⊢
      exact ih h

/-- A run that has ended and has written its representation has also written its minutes and its meeting. -/
theorem Inv.finished (h : Inv w m e l ps) (hdone : ∀ t ∈ e.tasks, t.ended)
    (hi : .ir i r ∈ l) : .mom i ∈ l ∧ .meeting i ∈ l := by
  obtain ⟨t, ht⟩ := Option.isSome_iff_exists.mp (h.known i r hi)
  obtain ⟨result, hret⟩ := ended_iff.mp (hdone t (List.mem_of_getElem? ht))
  have hplan : Safe (watch t.source t.jobId) t.rest (ps i) Ended := h.plans i t ht
  rw [hret] at hplan
  have htask : TaskInv m (titleOf w m) l i t (ps i) := h.tasks i t ht
  obtain ⟨p, hp, hout⟩ := hplan
  rw [hp] at htask
  have htold : Told m (titleOf w m) l i p.phase := htask.told
  have hwritten : ¬ p.phase.Unwritten := fun hu => by
    cases hph : p.phase <;> simp only [hph, Told, Phase.Unwritten] at htold hu
    · exact htold r hi
    · exact htold.2 r hi
    · exact htold.2 r hi
  have hfin : ∃ meeting r', p.phase = .finished meeting r' := by
    cases result with
    | ok id =>
      obtain ⟨meeting, r', hph, -⟩ := hout.finished
      exact ⟨meeting, r', hph⟩
    | error err =>
      rcases hout.cause with hst | hb | ⟨meeting, hph⟩
      · have hcalm : p.stopped = false := htask.calm
        simp [hst] at hcalm
      · exact absurd (htask.broken hb) hwritten
      · exact absurd (by rw [hph]; trivial) hwritten
  obtain ⟨meeting, r', hph⟩ := hfin
  rw [hph] at htold
  exact htold.2.2

theorem agrees_of_store {w' : World} (hirs : Table.get m w'.store.irs = Table.get m w.store.irs)
    (hmoms : Table.get m w'.store.moms = Table.get m w.store.moms)
    (hmeet : Table.get m w'.store.meetings = Table.get m w.store.meetings) : Agrees w' m ↔ Agrees w m := by
  unfold Agrees
  rw [hirs, hmoms, hmeet]

/-- Where no representation is written, nothing is. -/
theorem Inv.unwritten (h : Inv w m e l ps) (hlast : last Write.irBy l = none) :
    last Write.momBy l = none ∧ last Write.meetingBy l = none := by
  have hno (j : ℕ) (r : MeetingIr) : .ir j r ∉ l := fun hj => by
    have hby : Write.irBy (.ir j r) = none := last_eq_none.mp hlast _ hj
    simp [Write.irBy] at hby
  constructor
  · cases hj : last Write.momBy l with
    | none => rfl
    | some j =>
      obtain ⟨r, hr⟩ := h.moms j (mem_of_momBy hj)
      exact absurd hr (hno j r)
  · cases hj : last Write.meetingBy l with
    | none => rfl
    | some j =>
      obtain ⟨r, hr⟩ := h.meetings j (mem_of_meetingBy hj)
      exact absurd hr (hno j r)

/-- Where `P` holds of what task `i` wrote: it holds of what task `j` wrote if that is the same task, or by itself. -/
theorem irOf_holds_iff {j : ℕ} {rj : MeetingIr} {P : MeetingIr → Prop} (hj : last (Write.irOf j) l = some rj)
    (hi : last (Write.irOf i) l = some r) (hP : P r) :
    P rj ↔ j = i ∨ ∀ r', last (Write.irOf j) l = some r' → P r' := by
  constructor
  · intro h
    right
    intro r' hr'
    rwa [← Option.some.inj (hj.symm.trans hr')]
  · rintro (rfl | h)
    · rwa [Option.some.inj (hj.symm.trans hi)]
    · exact h rj hj

/-- What the tables hold in the end. -/
theorem Inv.agrees_iff (h : Inv w m e l ps) (hdone : ∀ t ∈ e.tasks, t.ended) :
    Agrees e.world m ↔ LastWritesAgree w m l := by
  have htables := h.tables
  have hirs := htables.irs
  have hmoms := htables.moms
  have hmeet := htables.meetings
  unfold LastWritesAgree
  cases hlast : last Write.irBy l with
  | none =>
    obtain ⟨hnomom, hnomeet⟩ := h.unwritten hlast
    rw [hlast] at hirs
    rw [hnomom] at hmoms
    rw [hnomeet] at hmeet
    exact agrees_of_store hirs hmoms hmeet
  | some a =>
    obtain ⟨i, r⟩ := a
    have hir : last (Write.irOf i) l = some r := irOf_of_irBy hlast
    obtain ⟨hmomi, hmeeti⟩ := h.finished hdone (mem_of_irOf hir)
    obtain ⟨j, hj⟩ : ∃ j, last Write.momBy l = some j := last_of_mem hmomi rfl
    obtain ⟨k, hk⟩ : ∃ k, last Write.meetingBy l = some k := last_of_mem hmeeti rfl
    rw [hlast] at hirs
    rw [hj] at hmoms
    rw [hk] at hmeet
    obtain ⟨rj, hrj, hmom⟩ := hmoms
    obtain ⟨rk, meeting, hrk, hget, hparts⟩ := hmeet
    have htitle := (htables.title meeting hget).2
    have hagree : Agrees e.world m ↔ renderWithTitle rj (titleOf w m) = renderWithTitle r (titleOf w m) ∧
        rk.participants = r.participants := by
      unfold Agrees
      simp [hget, hirs, hmom, hparts, htitle]
    have hmomHolds :=
      irOf_holds_iff (P := fun r' => renderWithTitle r' (titleOf w m) = renderWithTitle r (titleOf w m)) hrj hir rfl
    have hmeetHolds := irOf_holds_iff (P := fun r' => r'.participants = r.participants) hrk hir rfl
    rw [hagree]
    refine and_congr ?_ ?_
    · rw [hmomHolds]
      simp [hj]
    · rw [hmeetHolds]
      simp [hk]

end End

/-- Two runs that compute the enrichment of `m` again, both about to begin. -/
def twoRetries (cfg : Config) (w : World) (m : MeetingId) (jobId jobId' : JobId) : EngineState where
  world := w
  tasks := [⟨jobId, .reprocess m, reprocess cfg jobId m⟩, ⟨jobId', .reprocess m, reprocess cfg jobId' m⟩]

/-- **Agreement after two enrichments**, in whatever order they took their steps, where every call of the store
succeeds and neither job is cancelled: exactly if the last writes agree. -/
theorem agreement_iff (cfg : Config) (w : World) (m : MeetingId) (jobId jobId' : JobId)
    (hkey : ∀ meeting, Table.get m w.store.meetings = some meeting → meeting.id = m)
    (hcalm : w.jobs.isCancelled jobId = false) (hcalm' : w.jobs.isCancelled jobId' = false) (as : List Action)
    (hsteps : ∀ a ∈ as, ∃ i c, a = .step i c ∧ c.fails = none) (e : EngineState)
    (hrun : Lts.run (step cfg) (twoRetries cfg w m jobId jobId') as = some e)
    (hdone : ∀ t ∈ e.tasks, t.ended) :
    Agrees e.world m ↔
      LastWritesAgree w m (Lts.trace (step cfg) writesOf (twoRetries cfg w m jobId jobId') as) := by
  have hstart : Inv w m (twoRetries cfg w m jobId jobId') [] fun _ => Phase.opening.going := by
    have htasks {i : ℕ} {t : Running} (ht : (twoRetries cfg w m jobId jobId').tasks[i]? = some t) :
        t = ⟨jobId, .reprocess m, reprocess cfg jobId m⟩ ∨ t = ⟨jobId', .reprocess m, reprocess cfg jobId' m⟩ := by
      have := List.mem_of_getElem? ht
      simpa [twoRetries] using this
    refine ⟨fun i t ht => ?_, fun i t ht => ?_, fun i t ht => ?_, ⟨rfl, rfl, rfl, ?_⟩, by simp, by simp, by simp⟩
    · rcases htasks ht with rfl | rfl <;> exact program_safe cfg _ (.reprocess m)
    · rcases htasks ht with rfl | rfl <;> exact ⟨rfl, by simp [Told], rfl, by simp⟩
    · rcases htasks ht with rfl | rfl
      · exact hcalm
      · exact hcalm'
    · intro meeting hm
      have hget : Table.get m w.store.meetings = some meeting := hm
      exact ⟨hkey meeting hm, by rw [titleOf, hget]; rfl⟩
  obtain ⟨ps, hend⟩ := Lts.inv_trace (I := fun e l => ∃ ps, Inv w m e l ps)
    (fun e l a e' ⟨ps, h⟩ ⟨i, c, ha, hc⟩ hs => by
      subst ha
      exact inv_step h hc hs) ⟨_, hstart⟩ hsteps hrun
  exact hend.agrees_iff hdone

/-! ### Two orders -/

/-- Everything succeeds, and the analyzer finds `ir`. -/
def finds (ir : MeetingIr) : Choice where
  written := true
  drawn := ([], 0)
  fails := none
  media := .error (.toolUnavailable [])
  asr := .error (.notImplemented [])
  found := .ok {}
  synthesized := .ok ir

/-- `n` steps of task `i`, for which the analyzer finds `ir`. -/
def steps (n i : ℕ) (ir : MeetingIr) : List Action := List.replicate n (.step i (finds ir))

/-- One chunk for each segment, without context. -/
def plain : Config := ⟨[], { contextChars := 0 }⟩

/-- A meeting with one segment, not analysed yet. -/
def oneMeeting : World where
  store := {
    meetings := [(['m'], Meeting.new ['t'] ['m'] 0)]
    transcripts := [(['m'], { segments := [{ start := .nan, «end» := .nan, text := ['a'] }] })] }

/-- What the two runs find. -/
def first : MeetingIr := { summary := ['a'] }

def second : MeetingIr := { summary := ['b'], participants := [{ id := ['p'] }] }

theorem oneMeeting_key (meeting : Meeting) (h : Table.get ['m'] oneMeeting.store.meetings = some meeting) :
    meeting.id = ['m'] := by
  obtain rfl : Meeting.new ['t'] ['m'] 0 = meeting := Option.some.inj h
  rfl

theorem mem_steps {n i : ℕ} {ir : MeetingIr} {a : Action} (h : a ∈ steps n i ir) :
    ∃ i c, a = .step i c ∧ c.fails = none :=
  ⟨i, finds ir, List.eq_of_mem_replicate h, rfl⟩

/-- One run after the other. -/
theorem agree_in_turn : ∃ e, Lts.run (step plain) (twoRetries plain oneMeeting ['m'] ['1'] ['2'])
    (steps 36 0 first ++ steps 36 1 second) = some e ∧ Agrees e.world ['m'] := by
  have hobs : (Lts.run (step plain) (twoRetries plain oneMeeting ['m'] ['1'] ['2'])
      (steps 36 0 first ++ steps 36 1 second)).map (fun e => e.tasks.all Running.ended) = some true := by
    decide +kernel
  have htrace : Lts.trace (step plain) writesOf (twoRetries plain oneMeeting ['m'] ['1'] ['2'])
      (steps 36 0 first ++ steps 36 1 second) =
        [.ir 0 first, .mom 0, .meeting 0, .ir 1 second, .mom 1, .meeting 1] := by decide +kernel
  obtain ⟨e, hrun, hended⟩ := Option.map_eq_some_iff.mp hobs
  refine ⟨e, hrun, ?_⟩
  refine (agreement_iff plain oneMeeting ['m'] ['1'] ['2'] oneMeeting_key rfl rfl _ (fun a ha => ?_) e hrun
    (List.all_eq_true.mp hended)).mpr ?_
  · exact (List.mem_append.mp ha).elim mem_steps mem_steps
  · rw [htrace]
    exact ⟨fun j hj => Or.inl (Option.some.inj hj).symm, fun j hj => Or.inl (Option.some.inj hj).symm⟩

/-- **The minutes of one run and the representation of the other.** The second run goes through between the two
writes of the first. -/
theorem interleaved_disagree : ¬ ∀ (cfg : Config) (w : World) (m : MeetingId) (jobId jobId' : JobId)
    (_ : ∀ meeting, Table.get m w.store.meetings = some meeting → meeting.id = m)
    (_ : w.jobs.isCancelled jobId = false) (_ : w.jobs.isCancelled jobId' = false) (as : List Action)
    (_ : ∀ a ∈ as, ∃ i c, a = .step i c ∧ c.fails = none) (e : EngineState)
    (_ : Lts.run (step cfg) (twoRetries cfg w m jobId jobId') as = some e) (_ : ∀ t ∈ e.tasks, t.ended),
    Agrees e.world m := by
  intro h
  have hobs : (Lts.run (step plain) (twoRetries plain oneMeeting ['m'] ['1'] ['2'])
      (steps 26 0 first ++ steps 36 1 second ++ steps 10 0 first)).map (fun e => (Table.get ['m'] e.world.store.irs,
        (Table.get ['m'] e.world.store.meetings).map Meeting.participants, e.tasks.all Running.ended)) =
      some (some second, some [], true) := by decide +kernel
  obtain ⟨e, hrun, he⟩ := Option.map_eq_some_iff.mp hobs
  obtain ⟨hir, hparts, hended⟩ : Table.get ['m'] e.world.store.irs = some second ∧
      (Table.get ['m'] e.world.store.meetings).map Meeting.participants = some [] ∧
      e.tasks.all Running.ended = true := by simpa using he
  obtain ⟨meeting, hget, hnone⟩ := Option.map_eq_some_iff.mp hparts
  have hagree := h plain oneMeeting ['m'] ['1'] ['2'] oneMeeting_key rfl rfl _ (fun a ha => by
    simp only [List.mem_append] at ha
    exact ha.elim (fun ha => ha.elim mem_steps mem_steps) mem_steps) e hrun (List.all_eq_true.mp hended)
  have hbad := (hagree meeting hget).2 second hir
  rw [hnone] at hbad
  exact absurd hbad (by decide)

end Notely.Engine.EnrichmentRaces
