import Notely.Engine.Custody

/-! # Whose statuses are stored

A run writes the status of its meeting at several points, under the id that it was given, that it drew, or
that its job remembers, and whether its meeting was stored or found or not. A status without a meeting comes
only from a request to reprocess a meeting that is not there.

* `vouch`: the monitor of the ids a run may write under; `program_vouched`: every run keeps to them.
* `Sound`: what is stored, and what the records of the jobs name, belongs to meetings that are stored.
* `statuses_owned`: without such requests every status belongs to a meeting. -/

namespace Notely.Engine.StatusOwners

open Notely.Lib Notely.Lib.Programs Notely.Lib.Monitors Notely.Engine.Domain Notely.Engine.Jobs
open Notely.Engine.Orchestrator Notely.Engine.Analysis Notely.Engine.Preprocess Notely.Engine.Answers
open Notely.Engine.RunPhases Notely.Engine.Pool Notely.Engine.Custody
open Notely.Lib.Strings (Text)

/-! ### The ids a run vouches for -/

/-- The ids of meetings a run has stored or been given, or its job remembers. -/
abbrev Vouched := List MeetingId

/-- The id a run is given. -/
def Source.given : Source → Vouched
  | .process _ => []
  | .reprocess id => [id]

/-- What a run may ask for: it only writes under the ids it vouches for, and only remembers those. -/
def vouchPermits (V : Vouched) {α : Type} : Op α → Prop
  | .updateJob _ f => ∀ job m, (f job).meetingId = some m → job.meetingId = some m ∨ m ∈ V
  | .saveTranscript id _ | .saveProcessingStatus id _ => id ∈ V
  | _ => True

/-- What a reply makes of them. -/
def vouchNext (V : Vouched) {α : Type} : Op α → α → Vouched
  | .saveMeeting meeting, .ok _ => meeting.id :: V
  | .getJob _, job => (job.bind Job.meetingId).toList ++ V
  | _, _ => V

/-- **The monitor of the ids.** -/
def vouch : Monitor Op Vouched where
  permits V o := vouchPermits V o
  next V o r := vouchNext V o r

section Runs
variable {cfg : Config} {jobId : JobId} {V : Vouched} {meeting : Meeting} {id : MeetingId}

/-- A computation that vouches for nothing more, whether it fails or not. -/
abbrev Quiet {α : Type} (x : Pipeline α) : Prop :=
  ∀ V, Try vouch x V (fun _ V' => V' = V) fun _ V' => V' = V

/-- Quiet steps, one after the other. -/
theorem quiet_seq {α β : Type} {x : Pipeline α} {f : α → Pipeline β} (hx : Quiet x) (hf : ∀ a, Quiet (f a)) :
    Quiet (x >>= f) := fun V => try_seq (hx V) fun a => hf a V

theorem quiet_pure {α : Type} (a : α) : Quiet (pure a : Pipeline α) := fun _ => try_pure rfl

theorem quiet_throw {α : Type} (e : PipelineError) : Quiet (throw e : Pipeline α) := fun _ => try_throw rfl

theorem quiet_orFail {ε α : Type} (wrap : ε → PipelineError) (r : Except ε α) : Quiet (orFail wrap r) := by
  cases r with
  | ok a => exact quiet_pure a
  | error e => exact quiet_throw (wrap e)

/-- An operation that writes nothing and changes no job. -/
theorem quiet_op {α : Type} {o : Op α} (hp : ∀ V, vouchPermits V o) (hn : ∀ V r, vouchNext V o r = V) :
    Quiet (op o) := fun V => try_lift (hp V) (hn V)

theorem quiet_send (e : Event) : Quiet (op (.send e)) := quiet_op (fun _ => trivial) fun _ _ => rfl

theorem quiet_saveMeetingIr (ir : MeetingIr) : Quiet (op (.saveMeetingIr id ir)) :=
  quiet_op (fun _ => trivial) fun _ _ => rfl

theorem quiet_saveMom (mom : Text) : Quiet (op (.saveMom id mom)) := quiet_op (fun _ => trivial) fun _ _ => rfl

theorem quiet_stage (st : JobStage) : Quiet (stage jobId st) :=
  quiet_op (fun _ _ _ h => Or.inl h) fun _ _ => rfl

theorem quiet_checkCancel : Quiet (checkCancel jobId) := by
  refine quiet_seq (quiet_op (fun _ => trivial) fun _ _ => rfl) fun raised => ?_
  cases raised with
  | true => exact quiet_throw _
  | false => exact quiet_pure _

theorem quiet_validateStage (ir : MeetingIr) : Quiet (validateStage jobId ir) :=
  quiet_seq (quiet_stage _) fun _ => quiet_seq (quiet_send _) fun _ =>
    quiet_seq (quiet_orFail _ _) fun _ => quiet_send _

theorem quiet_extractFrom (context : AnalysisContext) (total : ℕ) (chunks : List Chunk) (i : ℕ) :
    Quiet (extractFrom jobId context total i chunks) := by
  induction chunks generalizing i with
  | nil => exact quiet_pure _
  | cons chunk chunks ih =>
    refine quiet_seq quiet_checkCancel fun _ => ?_
    refine quiet_seq (quiet_op (fun _ => trivial) fun _ _ => rfl) fun r => quiet_seq (quiet_orFail _ r) fun _ => ?_
    exact quiet_seq (quiet_send _) fun _ => quiet_seq (ih (i + 1)) fun _ => quiet_pure _

theorem quiet_analyze (prepared : PreparedTranscript) (context : AnalysisContext) :
    Quiet (analyze jobId prepared context) := by
  unfold analyze
  dsimp only
  split_ifs
  · exact quiet_seq (quiet_validateStage _) fun _ => quiet_pure _
  · refine quiet_seq (quiet_stage _) fun _ => quiet_seq (quiet_send _) fun _ => ?_
    refine quiet_seq (quiet_extractFrom _ _ _ _) fun findings => quiet_seq (quiet_send _) fun _ => ?_
    refine quiet_seq quiet_checkCancel fun _ => quiet_seq (quiet_stage _) fun _ => ?_
    refine quiet_seq (quiet_send _) fun _ => quiet_seq (quiet_op (fun _ => trivial) fun _ _ => rfl) fun r => ?_
    refine quiet_seq (quiet_orFail _ r) fun ir => quiet_seq (quiet_send _) fun _ => ?_
    exact quiet_seq quiet_checkCancel fun _ => quiet_seq (quiet_validateStage _) fun _ => quiet_pure _

theorem quiet_mediaAndAsr (path : Text) : Quiet (mediaAndAsr cfg jobId path) := by
  refine quiet_seq (quiet_stage _) fun _ => quiet_seq (quiet_send _) fun _ => ?_
  refine quiet_seq (quiet_op (fun _ => trivial) fun _ _ => rfl) fun r => quiet_seq (quiet_orFail _ r) fun _ => ?_
  refine quiet_seq (quiet_send _) fun _ => quiet_seq quiet_checkCancel fun _ => ?_
  refine quiet_seq (quiet_stage _) fun _ => quiet_seq (quiet_send _) fun _ => ?_
  refine quiet_seq (quiet_op (fun _ => trivial) fun _ _ => rfl) fun r => quiet_seq (quiet_orFail _ r) fun _ => ?_
  exact quiet_seq (quiet_send _) fun _ => quiet_pure _

theorem quiet_rawTranscriptOf (input : MeetingInput) : Quiet (rawTranscriptOf cfg jobId input) := by
  cases input with
  | transcript title t => exact quiet_pure t
  | audio title path => exact quiet_mediaAndAsr path

/-- A run that has an error to end with may vouch for anything. -/
abbrev Failing : PipelineError → Vouched → Prop := fun _ _ => True

theorem Quiet.then {α β : Type} {x : Pipeline α} {f : α → Pipeline β} {R : β → Vouched → Prop} (hx : Quiet x)
    (hf : ∀ a, Try vouch (f a) V R Failing) : Try vouch (x >>= f) V R Failing :=
  try_bind ((hx V).mono (fun a _ h => h ▸ hf a) fun _ _ _ => trivial)

/-- **The enrichment stores its meeting last.** -/
theorem enrich_vouched (transcript : Transcript) (context : AnalysisContext) :
    Try vouch (enrich cfg jobId meeting transcript context) V (fun _ V' => meeting.id ∈ V') Failing := by
  refine (quiet_stage _).then fun _ => (quiet_send _).then fun _ => (quiet_send _).then fun _ => ?_
  refine quiet_checkCancel.then fun _ => (quiet_analyze _ _).then fun ir => ?_
  refine (quiet_saveMeetingIr ir).then fun r => (quiet_orFail _ r).then fun _ => ?_
  refine (quiet_stage _).then fun _ => (quiet_send _).then fun _ => (quiet_send _).then fun _ => ?_
  refine (quiet_stage _).then fun _ => (quiet_saveMom _).then fun r => ?_
  refine (quiet_orFail _ r).then fun _ => try_op trivial fun r => ?_
  cases r with
  | ok _ => exact try_pure List.mem_cons_self
  | error e => exact try_throw trivial

theorem persistStatus_vouched {R : Unit → Vouched → Prop} (hid : id ∈ V) (h : R () V) (status : ProcessingStatus) :
    Try vouch (persistStatus id status) V R Failing :=
  try_op hid fun _ => try_pure h

theorem run_vouched (input : MeetingInput) :
    Try vouch (run cfg jobId input) V (fun id V' => id ∈ V') Failing := by
  refine try_op (fun _ _ h => Or.inl h) fun _ => try_op trivial fun drawn => ?_
  refine try_unwrap trivial (fun _ => ?_) fun _ => trivial
  have hmem : (Meeting.new input.title drawn.1 drawn.2).id ∈
      vouchNext V (.saveMeeting (Meeting.new input.title drawn.1 drawn.2)) (.ok ()) := List.mem_cons_self
  refine try_op (fun _ m h => Or.inr (Option.some.inj h ▸ hmem)) fun _ => ?_
  refine (quiet_send _).then fun _ => quiet_checkCancel.then fun _ => (quiet_rawTranscriptOf _).then fun t => ?_
  refine try_unwrap hmem (fun _ => ?_) fun _ => trivial
  refine try_bind (persistStatus_vouched hmem ?_ _)
  refine quiet_checkCancel.then fun _ => try_bind ((enrich_vouched _ _).mono (fun _ _ h => ?_) fun _ _ h => h)
  exact try_pure h

theorem rerun_vouched (hid : id ∈ V) : Try vouch (rerun cfg jobId id) V (fun id' V' => id' ∈ V') Failing := by
  refine try_op (fun _ m h => Or.inr (Option.some.inj h ▸ hid)) fun _ => ?_
  refine try_unwrap trivial (fun found => ?_) fun _ => trivial
  cases found with
  | none => exact try_throw trivial
  | some meeting =>
    refine try_unwrap trivial (fun loaded => ?_) fun _ => trivial
    cases loaded with
    | none => exact try_throw trivial
    | some transcript =>
      refine try_bind (persistStatus_vouched hid ?_ _)
      refine (quiet_send _).then fun _ => quiet_checkCancel.then fun _ => ?_
      exact try_bind ((enrich_vouched _ _).mono (fun _ _ h => try_pure h) fun _ _ h => h)

theorem reportFailure_vouched {mid : Option MeetingId} {f : Job → Job} {status : ProcessingStatus} {message : Text}
    (hf : ∀ job, (f job).meetingId = job.meetingId) (hmid : ∀ m ∈ mid, m ∈ V) :
    Safe vouch (reportFailure jobId mid f status message) V fun _ _ => True := by
  refine safe_bind (safe_perform (fun job m h => Or.inl (hf job ▸ h)) fun _ => ?_)
  cases mid with
  | none => exact safe_perform trivial fun _ => trivial
  | some m => exact safe_bind (safe_perform (hmid m rfl) fun _ => safe_perform trivial fun _ => trivial)

theorem reportSuccess_vouched (hid : id ∈ V) : Safe vouch (reportSuccess jobId id) V fun _ _ => True := by
  refine safe_bind (safe_perform (fun _ m h => Or.inr (Option.some.inj h ▸ hid)) fun _ => ?_)
  exact safe_bind (safe_perform hid fun _ => safe_perform trivial fun _ => trivial)

/-- The outcome is applied to the meeting that the job remembers, or that the run returns. -/
theorem finalize_vouched {result : Except PipelineError MeetingId} (h : ∀ id, result = .ok id → id ∈ V) :
    Safe vouch (finalize jobId result) V fun _ _ => True := by
  refine safe_bind (safe_perform trivial fun job => ?_)
  have hmid : ∀ m ∈ job.bind Job.meetingId, m ∈ vouchNext V (.getJob jobId) job := fun m hm =>
    List.mem_append_left V (Option.mem_toList.mpr hm)
  cases result with
  | ok id =>
    have hid : id ∈ vouchNext V (.getJob jobId) job := List.mem_append_right _ (h id rfl)
    exact safe_bind ((reportSuccess_vouched hid).mono fun _ _ h => h)
  | error err =>
    have hfail (f : Job → Job) (status : ProcessingStatus) (message : Text)
        (hf : ∀ job, (f job).meetingId = job.meetingId) :
        Safe vouch (reportFailure jobId (job.bind Job.meetingId) f status message >>= fun _ => pure (.error err))
          (vouchNext V (.getJob jobId) job) fun (_ : Except PipelineError MeetingId) _ => True :=
      safe_bind ((reportFailure_vouched hf hmid).mono fun _ _ h => h)
    cases err with
    | cancelled => exact hfail _ _ _ fun _ => rfl
    | media e | asr e | ai e | storage e => exact hfail _ _ _ fun _ => rfl

/-- **Every run only writes under ids it vouches for.** -/
theorem program_vouched (cfg : Config) (jobId : JobId) (source : Source) :
    Safe vouch (source.program cfg jobId) (Source.given source) fun _ _ => True := by
  cases source with
  | process input =>
    refine safe_bind (Safe.mono (run_vouched input) fun r V h => finalize_vouched fun id hid => ?_)
    subst hid
    exact h
  | reprocess id =>
    refine safe_bind (Safe.mono (rerun_vouched List.mem_cons_self) fun r V h => finalize_vouched fun id hid => ?_)
    subst hid
    exact h

end Runs

/-! ### What is stored -/

/-- The meeting has a record. -/
def Listed (w : World) (m : MeetingId) : Prop := (Table.get m w.store.meetings).isSome

instance (w : World) (m : MeetingId) : Decidable (Listed w m) := inferInstanceAs (Decidable (_ = true))

/-- **Every stored status belongs to a stored meeting.** -/
def StatusesOwned (w : World) : Prop := ∀ m, (Table.get m w.store.statuses).isSome → Listed w m

/-- The meetings that the records of the jobs name meet `Q`. -/
structure Records (r : JobRegistry) (Q : MeetingId → Prop) : Prop where
  entry : ∀ id entry, Table.get id r.inner = some entry → ∀ m, entry.job.meetingId = some m → Q m
  row : ∀ row ∈ r.store, ∀ m, row.2.meetingId = some m → Q m

section Records
variable {r : JobRegistry} {Q Q' : MeetingId → Prop} {id : JobId} {job : Job} {f : Job → Job} {written : Bool}

theorem Records.mono (h : Records r Q) (hq : ∀ m, Q m → Q' m) : Records r Q' :=
  ⟨fun id entry he m hm => hq m (h.entry id entry he m hm), fun row hrow m hm => hq m (h.row row hrow m hm)⟩

theorem Records.persist (h : Records r Q) (hq : ∀ m, job.meetingId = some m → Q m) :
    Records (r.persist job written) Q := by
  refine ⟨fun id entry he => ?_, fun row hrow => ?_⟩
  · rw [inner_persist] at he
    exact h.entry id entry he
  · rcases mem_persist hrow with hrow | rfl
    · exact h.row row hrow
    · exact hq

theorem Records.reinsert (h : Records r Q) (hq : ∀ m, job.meetingId = some m → Q m) :
    Records (r.reinsert job written) Q := by
  refine ⟨fun id entry he => ?_, (h.persist hq).row⟩
  by_cases hid : id = job.id
  · subst hid
    rw [inner_reinsert_self] at he
    rw [← Option.some.inj he]
    exact hq
  · rw [inner_reinsert_of_ne hid] at he
    exact h.entry id entry he

theorem Records.update (h : Records r Q) (hq : ∀ job m, (f job).meetingId = some m → job.meetingId = some m ∨ Q m) :
    Records (r.update id f written) Q := by
  have hentry {entry : Entry} (he : Table.get id r.inner = some entry) (m : MeetingId)
      (hm : (f entry.job).meetingId = some m) : Q m :=
    (hq entry.job m hm).elim (h.entry id entry he m) fun hm => hm
  refine ⟨fun j entry he => ?_, fun row hrow => ?_⟩
  · by_cases hid : j = id
    · subst hid
      rw [inner_update_self] at he
      obtain ⟨entry', he', rfl⟩ := Option.map_eq_some_iff.mp he
      exact hentry he'
    · rw [inner_update_of_ne hid] at he
      exact h.entry j entry he
  · rcases mem_update hrow with hrow | ⟨entry, he, heq⟩
    · exact h.row row hrow
    · rw [heq]
      exact hentry he

theorem Records.requestCancel (h : Records r Q) : Records (r.requestCancel id).2 Q := by
  refine ⟨fun j entry he => ?_, by rw [store_requestCancel]; exact h.row⟩
  obtain ⟨entry', he', hjob⟩ := inner_requestCancel he
  rw [hjob]
  exact h.entry j entry' he'

end Records

/-- What is stored, and what the records of the jobs name, belongs to meetings that are stored. -/
structure Sound (w : World) : Prop where
  statuses : StatusesOwned w
  transcripts : ∀ m, (Table.get m w.store.transcripts).isSome → Listed w m
  jobs : Records w.jobs (Listed w)

section Operation
variable {w : World} {V : Vouched} {α : Type} {o : Op α} {c : Outcome o}

/-- An artifact is written under a listed id. -/
theorem isSome_put {β : Type} {id m : MeetingId} {b : β} {t : List (MeetingId × β)} {Q : MeetingId → Prop}
    (h : ∀ m, (Table.get m t).isSome → Q m) (hid : Q id) (hm : (Table.get m (Table.put id b t)).isSome) : Q m := by
  by_cases hne : m = id
  · exact hne ▸ hid
  · rw [Table.get_put_of_ne hne] at hm
    exact h m hm

/-- **An operation under vouched ids keeps everything owned**, and what is vouched for after it is listed. -/
theorem sound_answer (h : Sound w) (hV : ∀ m ∈ V, Listed w m) (hp : vouchPermits V o) :
    Sound (answer w o c).2 ∧ ∀ m ∈ vouchNext V o (answer w o c).1, Listed (answer w o c).2 m := by
  cases o with
  | updateJob id f =>
    exact ⟨⟨h.statuses, h.transcripts, h.jobs.update fun job m hm => (hp job m hm).imp (fun h => h) (hV m)⟩, hV⟩
  | getJob id =>
    refine ⟨h, fun m hm => ?_⟩
    rcases List.mem_append.mp hm with hm | hm
    · obtain ⟨job, hjob, hmid⟩ := Option.bind_eq_some_iff.mp (Option.mem_toList.mp hm)
      obtain ⟨entry, he, rfl⟩ := Option.map_eq_some_iff.mp hjob
      exact h.jobs.entry id entry he m hmid
    · exact hV m hm
  | saveMeeting meeting =>
    cases c with
    | some e => exact ⟨h, hV⟩
    | none =>
      have hmono : ∀ m, Listed w m → Listed (answer w (.saveMeeting meeting) none).2 m := fun m hm =>
        Table.isSome_get_put hm
      refine ⟨⟨fun m hm => hmono m (h.statuses m hm), fun m hm => hmono m (h.transcripts m hm),
        h.jobs.mono hmono⟩, fun m hm => ?_⟩
      rcases List.mem_cons.mp hm with rfl | hm
      · simp [Listed, answer, World.write]
      · exact hmono m (hV m hm)
  | saveTranscript id t =>
    cases c with
    | some e => exact ⟨h, hV⟩
    | none => exact ⟨⟨h.statuses, fun m hm => isSome_put h.transcripts (hV id hp) hm, h.jobs⟩, hV⟩
  | saveProcessingStatus id status =>
    cases c with
    | some e => exact ⟨h, hV⟩
    | none => exact ⟨⟨fun m hm => isSome_put h.statuses (hV id hp) hm, h.transcripts, h.jobs⟩, hV⟩
  | saveMeetingIr _ _ | saveMom _ _ =>
    cases c with
    | some e => exact ⟨h, hV⟩
    | none => exact ⟨⟨h.statuses, h.transcripts, h.jobs⟩, hV⟩
  | getMeeting _ | getTranscript _ => cases c <;> exact ⟨h, hV⟩
  | send e => exact ⟨⟨h.statuses, h.transcripts, h.jobs⟩, hV⟩
  | _ => exact ⟨h, hV⟩

end Operation

/-! ### The engine -/

/-- A task only writes under ids it vouches for, and these are listed. -/
def Trusty (w : World) (t : Running) : Prop := ∃ V, Safe vouch t.rest V (fun _ _ => True) ∧ ∀ m ∈ V, Listed w m

/-- What is left to recover is of listed meetings. -/
def Recovery.Owned (w : World) : Recovery → Prop
  | .status id => Listed w id
  | .job job => ∀ m, job.meetingId = some m → Listed w m

/-- Everything the engine has is of listed meetings. -/
structure Inv (e : EngineState) : Prop where
  world : Sound e.world
  tasks : ∀ t ∈ e.tasks, Trusty e.world t
  recovering : ∀ item ∈ e.recovering, Recovery.Owned e.world item

/-- **A request to reprocess names a meeting that has a record.** -/
def KnownMeeting (e : EngineState) : Action → Prop
  | .reprocess _ id _ => Listed e.world id
  | _ => True

instance : ∀ (e : EngineState) (a : Action), Decidable (KnownMeeting e a)
  | e, .reprocess _ id _ => inferInstanceAs (Decidable (Listed e.world id))
  | _, .process _ _ _ | _, .cancel _ | _, .step _ _ | _, .crash _ _ | _, .recover _ => isTrue trivial

section Engine
variable {cfg : Config} {e e' : EngineState} {ps ps' : Progresses} {a : Action}

theorem Trusty.mono {w w' : World} {t : Running} (h : Trusty w t) (hw : ∀ m, Listed w m → Listed w' m) :
    Trusty w' t := by
  obtain ⟨V, hsafe, hV⟩ := h
  exact ⟨V, hsafe, fun m hm => hw m (hV m hm)⟩

theorem Recovery.Owned.mono {w w' : World} {item : Recovery} (h : Recovery.Owned w item)
    (hw : ∀ m, Listed w m → Listed w' m) : Recovery.Owned w' item := by
  cases item with
  | status id => exact hw id h
  | job job => exact fun m hm => hw m (h m hm)

/-- A new task is given the id of a listed meeting, if any. -/
theorem trusty_program {w : World} (jobId : JobId) (source : Source) (h : ∀ m ∈ Source.given source, Listed w m) :
    Trusty w ⟨jobId, source, source.program cfg jobId⟩ :=
  ⟨_, program_vouched cfg jobId source, h⟩

/-- What is stored without the meetings and the rows is of no matter to the tasks. -/
theorem Inv.spawn (h : Inv e) (jobId : JobId) (source : Source) (hs : ∀ m ∈ Source.given source, Listed e.world m) :
    Inv (e.spawn cfg jobId source) := by
  refine ⟨h.world, fun t ht => ?_, h.recovering⟩
  rcases List.mem_append.mp ht with ht | ht
  · exact h.tasks t ht
  · rw [List.mem_singleton.mp ht]
    exact trusty_program jobId source hs

theorem Inv.accept (h : Inv e) (jobId : JobId) (kind : JobKind) (written : Bool) :
    Inv (e.accept jobId kind written) := by
  have hjobs : Records (e.world.jobs.create kind jobId written) (Listed e.world) :=
    h.world.jobs.reinsert fun m hm => by simp [Job.new] at hm
  exact ⟨⟨h.world.statuses, h.world.transcripts, hjobs⟩, h.tasks, h.recovering⟩

/-- What is recovered after a crash is of listed meetings. -/
theorem owned_crash (h : Sound e.world) {statusesListed jobsListed : Bool} :
    ∀ item ∈ (e.crash statusesListed jobsListed).recovering, Recovery.Owned e.world item := by
  intro item hitem
  rcases List.mem_append.mp hitem with hitem | hitem
  · split_ifs at hitem
    · obtain ⟨id, hid, rfl⟩ := List.mem_map.mp hitem
      obtain ⟨row, hrow, rfl⟩ := List.mem_map.mp hid
      have hmem : row.1 ∈ e.world.store.statuses.map Prod.fst := List.mem_map_of_mem (List.mem_of_mem_filter hrow)
      exact h.statuses row.1 (Table.isSome_get.mpr hmem)
    · simp at hitem
  · split_ifs at hitem
    · obtain ⟨job, hjob, rfl⟩ := List.mem_map.mp hitem
      obtain ⟨row, hrow, rfl⟩ := mem_listUnfinished hjob
      exact h.jobs.row row hrow
    · simp at hitem

/-- **Every action keeps everything owned**, if a request to reprocess names a meeting that has a record. -/
theorem inv_evolves (h : Inv e) (hok : KnownMeeting e a) (he : Evolves cfg e ps a e' ps') : Inv e' := by
  cases he with
  | task ht hrest hpermits hfresh =>
    rename_i i t β o k c
    obtain ⟨V, hsafe, hV⟩ := h.tasks t (List.mem_of_getElem? ht)
    rw [hrest] at hsafe
    obtain ⟨hsound, hnext⟩ := sound_answer (c := c.outcome o) h.world hV hsafe.1
    have hmono : ∀ m, Listed e.world m → Listed (answer e.world o (c.outcome o)).2 m := fun m hm =>
      meeting_isSome_answer hm
    refine ⟨hsound, fun t' ht' => ?_, fun item hitem => (h.recovering item hitem).mono hmono⟩
    rcases List.mem_or_eq_of_mem_set ht' with ht' | rfl
    · exact (h.tasks t' ht').mono hmono
    · exact ⟨_, hsafe.2 _, hnext⟩
  | process hfresh =>
    rename_i jobId input written
    exact (h.accept jobId .process written).spawn jobId (.process input) (by simp [Source.given])
  | reprocess hfresh =>
    rename_i jobId id written
    refine (h.accept jobId .reprocess written).spawn jobId (.reprocess id) fun m hm => ?_
    rw [List.mem_singleton.mp hm]
    exact hok
  | cancel =>
    exact ⟨⟨h.world.statuses, h.world.transcripts, h.world.jobs.requestCancel⟩, h.tasks, h.recovering⟩
  | crash =>
    refine ⟨⟨h.world.statuses, h.world.transcripts, ?_⟩, by simp [EngineState.crash], owned_crash h.world⟩
    exact ⟨by simp [EngineState.crash, World.rebooted], h.world.jobs.row⟩
  | interrupted hq =>
    rename_i id rest c
    have hid : Listed e.world id := h.recovering (.status id) (by simp [hq])
    have hrest : ∀ item ∈ rest, Recovery.Owned e.world item := fun item hitem => h.recovering item (by simp [hq, hitem])
    unfold EngineState.recoverStatus
    cases c.fails with
    | some err => exact ⟨h.world, h.tasks, hrest⟩
    | none =>
      exact ⟨⟨fun m hm => isSome_put h.world.statuses hid hm, h.world.transcripts, h.world.jobs⟩, h.tasks, hrest⟩
  | closed hq =>
    rename_i job rest c error
    have hjob : Recovery.Owned e.world (.job job) := h.recovering _ (by simp [hq])
    refine ⟨⟨h.world.statuses, h.world.transcripts, h.world.jobs.persist hjob⟩, h.tasks, fun item hitem => ?_⟩
    exact h.recovering item (by simp [hq, hitem])
  | resumed hq hid hstored hw =>
    rename_i job id rest c w
    subst hw
    have hjob : Recovery.Owned e.world (.job job) := h.recovering _ (by simp [hq])
    have hinv : Inv { e with
        world := { e.world with jobs := e.world.jobs.reinsert job.resumed c.written }, recovering := rest } :=
      ⟨⟨h.world.statuses, h.world.transcripts, h.world.jobs.reinsert hjob⟩, h.tasks,
        fun item hitem => h.recovering item (by simp [hq, hitem])⟩
    refine hinv.spawn job.id (.reprocess id) fun m hm => ?_
    rw [List.mem_singleton.mp hm]
    exact h.world.transcripts id hstored

/-- **Without requests to reprocess meetings that are not there, every stored status belongs to a stored
meeting.** -/
theorem statuses_owned (cfg : Config) : ∀ e, Lts.Reach (step cfg) KnownMeeting {} e → StatusesOwned e.world := by
  intro e hreach
  have hstart : Inv {} ∧ ∃ ps, Plans {} ps := by
    refine ⟨⟨⟨?_, ?_, ?_, ?_⟩, ?_, ?_⟩, fun _ => Phase.opening.going, ?_⟩
    · simp [StatusesOwned]
    · simp
    · simp
    · simp
    · simp
    · simp
    · simp [Plans, Each]
  have hstep {s s' : EngineState} {a : Action} (h : Inv s ∧ ∃ ps, Plans s ps) (hok : KnownMeeting s a)
      (hs : step cfg s a = some s') : Inv s' ∧ ∃ ps, Plans s' ps := by
    obtain ⟨hinv, ps, hps⟩ := h
    obtain ⟨ps', hps', he⟩ := plans_step hps hs
    exact ⟨inv_evolves hinv hok he, ps', hps'⟩
  exact (hreach.inv hstart fun _ _ _ => hstep).1.world.statuses

end Engine

/-- Nothing fails. -/
def succeeding : Choice where
  written := true
  drawn := (['m'], 0)
  fails := none
  media := .error (.toolUnavailable [])
  asr := .error (.notImplemented [])
  found := .ok {}
  synthesized := .ok {}

/-- A capture is stored, and its meeting is reprocessed until its new status is written. -/
def knownMeeting : List Action :=
  .process ['j'] (.transcript none {}) true :: List.replicate 7 (.step 0 succeeding) ++
    .reprocess ['k'] ['m'] true :: List.replicate 5 (.step 1 succeeding)

theorem status_kept : ∃ e, Lts.run (step ⟨[], {}⟩) {} knownMeeting = some e ∧
    (Table.get ['m'] e.world.store.statuses).isSome ∧ StatusesOwned e.world := by
  have hobs : (Lts.run (step ⟨[], {}⟩) {} knownMeeting).map (fun e =>
      (Table.get ['m'] e.world.store.statuses).isSome) = some true := by
    decide +kernel
  obtain ⟨e, hrun, hstatus⟩ := Option.map_eq_some_iff.mp hobs
  exact ⟨e, hrun, hstatus, statuses_owned ⟨[], {}⟩ e (Lts.Reach.of_run (by decide +kernel) hrun)⟩

/-- A request to reprocess a meeting that is not there. -/
def unknownMeeting : List Action := .reprocess ['j'] ['x'] true :: List.replicate 6 (.step 0 succeeding)

/-- **The failure of such a request is stored as the status of the meeting that is not there.** -/
theorem status_orphaned : ¬ ∀ (cfg : Config) (as : List Action) (e : EngineState),
    Lts.run (step cfg) {} as = some e → StatusesOwned e.world := by
  intro h
  have hobs : (Lts.run (step ⟨[], {}⟩) {} unknownMeeting).map (fun e =>
      ((Table.get ['x'] e.world.store.statuses).isSome, (Table.get ['x'] e.world.store.meetings).isSome)) =
      some (true, false) := by
    decide +kernel
  obtain ⟨e, hrun, hobs⟩ := Option.map_eq_some_iff.mp hobs
  obtain ⟨hstatus, hmeeting⟩ := Prod.mk.inj hobs
  have hlisted := h ⟨[], {}⟩ unknownMeeting e hrun ['x'] hstatus
  rw [Listed, hmeeting] at hlisted
  exact absurd hlisted (by simp)

end Notely.Engine.StatusOwners
