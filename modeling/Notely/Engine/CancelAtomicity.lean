import Notely.Engine.DeferredRuns
import Notely.Engine.RunPhases

/-! # Cancellation

A run that ends `Cancelled` leaves the artifacts as they were, nothing is analysed once a check has seen
the flag, and nothing is analysed before the transcript is stored. What a run does is noted: each check of
the flag, and each call of the analyzer with the world it is made in.

* `Coupled`: the phase of a run, the world it has made and its notes.
* `cancel_atomic`: the three statements, for both kinds of run. -/

namespace Notely.Engine.CancelAtomicity

open Notely.Lib Notely.Lib.Programs Notely.Lib.Monitors Notely.Engine.Domain Notely.Engine.Jobs
open Notely.Engine.Orchestrator Notely.Engine.Analysis Notely.Engine.Answers Notely.Engine.DeferredRuns
open Notely.Engine.RunPhases

/-! ### Notes -/

/-- What is noted: what a `check_cancel` has seen, and the world in which `extract_chunk` or `synthesize` is
called. -/
inductive Mark
  | checked (raised : Bool)
  | analyzing (world : World)

/-- The notes of an operation. -/
def marks {α : Type} (s : Session) : Op α → α → List Mark
  | .isCancelled _, raised => [.checked raised]
  | .extractChunk _ _, _ | .synthesize _ _ _, _ => [.analyzing s.world]
  | _, _ => []

/-- The surroundings of a run, with notes. -/
def noted (env : Env) : Handler Op (Session × List Mark) := noting env.handler marks

/-- The first of two notes does not say that the flag was seen, or the second is no call of the analyzer. -/
def Mark.Before (a b : Mark) : Prop := a = .checked true → ∀ w, b ≠ .analyzing w

/-- The meeting of a run. -/
def subject (env : Env) : Source → MeetingId
  | .process _ => env.drawn.1
  | .reprocess id => id

/-! ### The phase of a run and the world -/

/-- The phase belongs to the meeting `m`, as far as it has one that is drawn. -/
def Concerns (source : Source) (m : MeetingId) : Phase → Prop
  | .drawn meeting | .recorded meeting => source = .reprocess m ∨ meeting.id = m
  | _ => True

/-- **The state of a run that started in `w`**, and its notes. -/
structure Coupled (source : Source) (env : Env) (w : World) (s : Session × List Mark) (p : Progress) : Prop where
  concerns : Concerns source (subject env source) p.phase
  unwritten : Phase.Unwritten p.phase → s.1.world.store.irs = w.store.irs ∧ s.1.world.store.moms = w.store.moms
  early : p.stopped = true → p.phase.Early
  captured : ∀ meeting, p.phase = .captured meeting → Stored s.1.world (subject env source)
  calm : p.stopped = false → .checked true ∉ s.2
  ordered : s.2.Pairwise Mark.Before
  analyzed : ∀ w', .analyzing w' ∈ s.2 → Stored w' (subject env source)

/-- The operations that write an artifact. -/
def WritesArtifact {α : Type} : Op α → Prop
  | .saveMeetingIr _ _ | .saveMom _ _ => True
  | _ => False

theorem artifacts_handler {env : Env} {s : Session} {α : Type} {o : Op α} (ho : ¬ WritesArtifact o) :
    (env.handler o s).2.world.store.irs = s.world.store.irs ∧
      (env.handler o s).2.world.store.moms = s.world.store.moms := by
  cases o with
  | saveMeetingIr _ _ | saveMom _ _ => exact absurd trivial ho
  | isCancelled _ =>
    simp only [Env.handler, Env.before, answer]
    split_ifs <;> exact ⟨rfl, rfl⟩
  | saveMeeting _ | saveTranscript _ _ | saveProcessingStatus _ _ =>
    simp only [Env.handler, Env.before, answer]
    cases env.outcome s _ <;> exact ⟨rfl, rfl⟩
  | getMeeting _ | getTranscript _ => simp [Env.handler, Env.before, answer]
  | _ => exact ⟨rfl, rfl⟩

section Step
variable {source : Source} {env : Env} {w : World} {jobId : JobId} {s : Session × List Mark} {p p' : Progress}

/-- An operation that notes nothing and writes no artifact. -/
theorem Coupled.quiet (h : Coupled source env w s p) {α : Type} {o : Op α} (hmarks : ∀ r, marks s.1 o r = [])
    (ho : ¬ WritesArtifact o) (hc : Concerns source (subject env source) p'.phase)
    (hu : Phase.Unwritten p'.phase → Phase.Unwritten p.phase)
    (he : p'.stopped = true → p.stopped = true ∧ p'.phase = p.phase)
    (hcap : ∀ meeting, p'.phase = .captured meeting →
      p.phase = .captured meeting ∨ Stored (env.handler o s.1).2.world (subject env source))
    (hcalm : p'.stopped = false → p.stopped = false) : Coupled source env w (noted env o s).2 p' := by
  have hlog : (noted env o s).2.2 = s.2 := by simp [noted, noting, hmarks]
  refine ⟨hc, fun hn => ?_, fun hs => ?_, fun meeting hm => ?_, fun hs => ?_, ?_, ?_⟩
  · have hw := @artifacts_handler env s.1 _ _ ho
    exact ⟨hw.1.trans (h.unwritten (hu hn)).1, hw.2.trans (h.unwritten (hu hn)).2⟩
  · rw [(he hs).2]
    exact h.early (he hs).1
  · exact (hcap meeting hm).elim (fun hm => stored_handler o s.1 (h.captured meeting hm)) id
  · rw [hlog]
    exact h.calm (hcalm hs)
  · rw [hlog]
    exact h.ordered
  · rw [hlog]
    exact h.analyzed

/-- An operation that notes nothing, writes no artifact and leaves the phase. -/
theorem Coupled.same (h : Coupled source env w s p) {α : Type} {o : Op α} (hmarks : ∀ r, marks s.1 o r = [])
    (ho : ¬ WritesArtifact o) (hph : p'.phase = p.phase) (hst : p'.stopped = p.stopped) :
    Coupled source env w (noted env o s).2 p' := by
  refine h.quiet hmarks ho ?_ ?_ (fun hs => ⟨hst ▸ hs, hph⟩) (fun meeting hm => Or.inl (hph ▸ hm)) ?_
  · rw [hph]
    exact h.concerns
  · rw [hph]
    exact id
  · rw [hst]
    exact id

/-- A call of the analyzer: the flag has not been seen, and the transcript is stored. -/
theorem Coupled.analyze (h : Coupled source env w s p) {meeting : Meeting} {α : Type} {o : Op α}
    (hmarks : ∀ r, marks s.1 o r = [.analyzing s.1.world]) (hworld : (env.handler o s.1).2.world = s.1.world)
    (hopen : p.Open) (hm : p.phase = .captured meeting) : Coupled source env w (noted env o s).2 p := by
  have hlog : (noted env o s).2.2 = s.2 ++ [.analyzing s.1.world] := by simp [noted, noting, hmarks]
  have hw : (noted env o s).2.1.world = s.1.world := hworld
  refine ⟨h.concerns, ?_, h.early, ?_, fun _ => ?_, ?_, fun w' hw' => ?_⟩
  · rw [hw]
    exact h.unwritten
  · rw [hw]
    exact h.captured
  · rw [hlog]
    simpa using h.calm hopen.1
  · rw [hlog, List.pairwise_append]
    refine ⟨h.ordered, List.pairwise_singleton _ _, fun a ha b _ hseen => ?_⟩
    exact absurd (hseen ▸ ha) (h.calm hopen.1)
  · rw [hlog, List.mem_append, List.mem_singleton] at hw'
    rcases hw' with hw' | hw'
    · exact h.analyzed w' hw'
    · cases hw'
      exact h.captured meeting hm

/-- A check of the flag. -/
theorem Coupled.check (h : Coupled source env w s p) (hearly : p.phase.Early) :
    Coupled source env w (noted env (.isCancelled jobId) s).2
      (next source p (.isCancelled jobId) (noted env (.isCancelled jobId) s).1) := by
  have hstore : (noted env (.isCancelled jobId) s).2.1.world.store = s.1.world.store := by
    simp only [noted, noting, Env.handler, Env.before, answer]
    split_ifs <;> rfl
  have hlog : (noted env (.isCancelled jobId) s).2.2 = s.2 ++ [.checked (noted env (.isCancelled jobId) s).1] := rfl
  have hph : ∀ raised, (next source p (.isCancelled jobId) raised).phase = p.phase := fun raised => by
    cases raised <;> rfl
  refine ⟨?_, ?_, ?_, ?_, ?_, ?_, ?_⟩
  · rw [hph]
    exact h.concerns
  · rw [hph, hstore]
    exact h.unwritten
  · rw [hph]
    exact fun _ => hearly
  · rw [hph]
    unfold Stored
    rw [hstore]
    exact h.captured
  · rw [hlog]
    cases (noted env (.isCancelled jobId) s).1 with
    | true => simp [next]
    | false => simpa [next] using h.calm
  · rw [hlog, List.pairwise_append]
    refine ⟨h.ordered, List.pairwise_singleton _ _, fun a ha b hb _ w' => ?_⟩
    rw [List.mem_singleton.mp hb]
    simp
  · rw [hlog]
    simpa using h.analyzed

/-- An operation that notes nothing and is refused. -/
theorem Coupled.refused (h : Coupled source env w s p) {α : Type} {o : Op α} (hmarks : ∀ r, marks s.1 o r = [])
    (hworld : (env.handler o s.1).2.world = s.1.world) (hph : p'.phase = p.phase) (hst : p'.stopped = p.stopped) :
    Coupled source env w (noted env o s).2 p' := by
  have hlog : (noted env o s).2.2 = s.2 := by simp [noted, noting, hmarks]
  have hw : (noted env o s).2.1.world = s.1.world := hworld
  refine ⟨?_, ?_, ?_, ?_, ?_, ?_, ?_⟩
  · rw [hph]
    exact h.concerns
  · rw [hph, hw]
    exact h.unwritten
  · rw [hph, hst]
    exact h.early
  · rw [hph, hw]
    exact h.captured
  · rw [hst, hlog]
    exact h.calm
  · rw [hlog]
    exact h.ordered
  · rw [hlog]
    exact h.analyzed

/-- An artifact written: from then on the tables may differ. -/
theorem Coupled.write (h : Coupled source env w s p) {α : Type} {o : Op α} (hmarks : ∀ r, marks s.1 o r = [])
    (hopen : p.Open) (hst : p'.stopped = p.stopped) (hw : ¬ Phase.Unwritten p'.phase) :
    Coupled source env w (noted env o s).2 p' := by
  have hlog : (noted env o s).2.2 = s.2 := by simp [noted, noting, hmarks]
  refine ⟨?_, fun hn => absurd hn hw, fun hs => ?_, fun meeting hm => ?_, fun _ => ?_, ?_, ?_⟩
  · cases hp : p'.phase <;> simp [Concerns, hp, Phase.Unwritten] at hw ⊢
  · simp [hst, hopen.1] at hs
  · exact absurd (by rw [hm]; trivial) hw
  · rw [hlog]
    exact h.calm hopen.1
  · rw [hlog]
    exact h.ordered
  · rw [hlog]
    exact h.analyzed

theorem written_not_captured {ph : Phase} {meeting : Meeting} (h : ph.written = .captured meeting) :
    ph = .captured meeting := by
  cases ph <;> first | exact h | simp [Phase.written] at h

theorem unwritten_written {ph : Phase} (h : Phase.Unwritten ph.written) : Phase.Unwritten ph := by
  cases ph <;> exact h

theorem unwritten_capture {ph : Phase} (h : Phase.Unwritten ph.capture) : Phase.Unwritten ph := by
  cases ph <;> exact h

theorem concerns_written {ph : Phase} {m : MeetingId} (h : Concerns source m ph) :
    Concerns source m ph.written := by
  cases ph <;> exact h

/-- **What an operation of a run keeps.** -/
theorem coupled_step {α : Type} {o : Op α} (h : Coupled source env w s p) (hp : permits source jobId p o) :
    Coupled source env w (noted env o s).2 (next source p o (noted env o s).1) := by
  cases o with
  | updateJob _ _ | getJob _ | saveProcessingStatus _ _ | send _ =>
    exact h.same (fun _ => rfl) id rfl rfl
  | isCancelled id =>
    obtain ⟨rfl, -, hearly⟩ := hp
    exact h.check hearly
  | extractAudio _ _ _ | transcribe _ =>
    exact Progress.after_ind (fun _ _ => h.same (fun _ => rfl) id rfl rfl) fun _ _ => h.same (fun _ => rfl) id rfl rfl
  | extractChunk _ _ | synthesize _ _ _ =>
    obtain ⟨hopen, meeting, hm⟩ := hp
    exact h.analyze (fun _ => rfl) rfl hopen hm
  | newMeeting =>
    obtain ⟨hopen, hph, input, rfl⟩ := hp
    refine h.quiet (fun _ => rfl) id (Or.inr rfl) ?_ ?_ (by simp [next]) id
    · simp [hph, Phase.Unwritten]
    · simp [next, hopen.1]
  | saveMeeting m =>
    obtain ⟨hopen, -⟩ := hp
    refine Progress.after_ind (fun _ _ => ?_) fun _ _ => h.same (fun _ => rfl) id rfl rfl
    refine h.quiet (fun _ => rfl) id ?_ unwritten_written ?_ (fun _ hc => Or.inl (written_not_captured hc)) id
    · exact concerns_written h.concerns
    · simp [hopen.1]
  | getMeeting m =>
    obtain ⟨hopen, hph, rfl⟩ := hp
    refine Progress.after_ind (fun found _ => ?_) fun _ _ => h.same (fun _ => rfl) id rfl rfl
    cases found with
    | none => exact h.same (fun _ => rfl) id rfl rfl
    | some meeting =>
      refine h.quiet (fun _ => rfl) id (Or.inl rfl) ?_ ?_ (by simp) id
      · simp [hph, Phase.Unwritten]
      · simp [hopen.1]
  | saveTranscript id t =>
    obtain ⟨hopen, hsub, meeting, hph, rfl⟩ := hp
    refine Progress.after_ind (fun _ hr => ?_) fun _ _ => h.same (fun _ => rfl) id rfl rfl
    refine h.quiet (fun _ => rfl) id ?_ unwritten_capture ?_ (fun _ _ => Or.inr ?_) id
    · simp [hph, Phase.capture, Concerns]
    · simp [hopen.1]
    · have hm : meeting.id = subject env source := by
        have hc := h.concerns
        rw [hph] at hc
        refine hc.resolve_left fun hs => ?_
        rw [hs] at hsub
        exact hsub
      rw [← hm]
      exact stored_saveTranscript hr
  | getTranscript m =>
    obtain ⟨hopen, rfl, meeting, hph⟩ := hp
    refine Progress.after_ind (fun found hr => ?_) fun _ _ => h.same (fun _ => rfl) id rfl rfl
    cases found with
    | none => exact h.same (fun _ => rfl) id rfl rfl
    | some t =>
      refine h.quiet (fun _ => rfl) id ?_ unwritten_capture ?_ (fun _ _ => Or.inr ?_) id
      · simp [hph, Phase.capture, Concerns]
      · simp [hopen.1]
      · have hget : Table.get m s.1.world.store.transcripts = some t := (read_eq_ok.mp hr).2
        rw [world_getTranscript]
        simp [Stored, subject, hget]
  | saveMeetingIr id ir =>
    obtain ⟨hopen, meeting, hph, rfl⟩ := hp
    refine Progress.after_ind (fun _ _ => ?_) fun e he => ?_
    · exact h.write (fun _ => rfl) hopen rfl (by simp [hph, Phase.analyze, Phase.Unwritten])
    · exact h.refused (fun _ => rfl) (write_world_of_error he) rfl rfl
  | saveMom id mom =>
    obtain ⟨hopen, meeting, ir, hph, rfl, rfl⟩ := hp
    refine Progress.after_ind (fun _ _ => ?_) fun e he => ?_
    · exact h.write (fun _ => rfl) hopen rfl (by simp [hph, Phase.render, Phase.Unwritten])
    · exact h.refused (fun _ => rfl) (write_world_of_error he) rfl rfl

end Step

/-! ### Cancellation -/

/-- The notes of a run. -/
def notes (cfg : Config) (env : Env) (jobId : JobId) (source : Source) (s : Session) : List Mark :=
  ((source.program cfg jobId).run (noted env) (s, [])).2.2

/-- **Cancel atomicity.** Wherever the flag rises and whatever fails: a run that ends `Cancelled` leaves the
representations and the minutes as they were, there is no call of the analyzer after a check that has seen the
flag, and the transcript of the meeting is stored at every call. -/
theorem cancel_atomic (cfg : Config) (env : Env) (jobId : JobId) (source : Source) (s : Session) :
    (((source.program cfg jobId).run env.handler s).1 = .error .cancelled →
      ((source.program cfg jobId).run env.handler s).2.world.store.irs = s.world.store.irs ∧
        ((source.program cfg jobId).run env.handler s).2.world.store.moms = s.world.store.moms) ∧
    (∀ l l', notes cfg env jobId source s = l ++ .checked true :: l' → ∀ w, .analyzing w ∉ l') ∧
    ∀ w, .analyzing w ∈ notes cfg env jobId source s → Stored w (subject env source) := by
  have hstart : Coupled source env s.world (s, []) Phase.opening.going :=
    ⟨trivial, fun _ => ⟨rfl, rfl⟩, by simp, by simp, by simp, List.Pairwise.nil, by simp⟩
  obtain ⟨p, hp, hend⟩ := safe_run (M := watch source jobId) (h := noted env)
    (fun o s p h hpo => coupled_step (o := o) h hpo) (program_safe cfg jobId source) hstart
  obtain ⟨hres, hsess⟩ : ((source.program cfg jobId).run (noted env) (s, [])).1 =
      ((source.program cfg jobId).run env.handler s).1 ∧
      ((source.program cfg jobId).run (noted env) (s, [])).2.1 = ((source.program cfg jobId).run env.handler s).2 :=
    run_noting
  refine ⟨fun hc => ?_, fun l l' hl w hw => ?_, hp.analyzed⟩
  · obtain ⟨p', rfl, hout⟩ := hend
    rw [← hsess]
    refine hp.unwritten ?_
    have hfail : Failed .cancelled p' := by
      have hr : ((source.program cfg jobId).run (noted env) (s, [])).1 = .error .cancelled := hres.trans hc
      rwa [hr] at hout
    have hearly : p'.phase.Early := hp.early (hfail.stopped rfl)
    change Phase.Unwritten p'.phase
    revert hearly
    cases p'.phase <;> simp [Phase.Early, Phase.Unwritten]
  · have hord : (l ++ .checked true :: l').Pairwise Mark.Before := hl ▸ hp.ordered
    have htail := (List.pairwise_append.mp hord).2.1
    exact (List.pairwise_cons.mp htail).1 _ hw rfl w rfl

end Notely.Engine.CancelAtomicity
