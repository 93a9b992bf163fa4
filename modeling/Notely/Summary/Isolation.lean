import Notely.Lib.Lts
import Notely.Summary.Connection

/-! # Whose event a call acts on

`_runPipeline` takes the first terminal event it hears for the one of its job, and the engine sends every
client the events of all jobs.

* `Isolated`: a call acts on the event of its own job, and goes on with a meeting under which its transcript is
  stored.
* `isolated_iff`: this holds all along a run exactly if a call that waits hears terminal events of its own job
  only.
* `completed_by_other`: a call takes the completion of another job for its own. -/

namespace Notely.Summary.Isolation

open Notely.Lib Notely.Lib.Lts Notely.Lib.Strings Notely.Engine Notely.Engine.Domain Notely.Engine.Jobs
open Notely.Engine.Orchestrator Notely.Engine.RunPhases Notely.Engine.Custody
open Notely.Engine.Pool (Progresses)
open Notely.Desktop Notely.Desktop.EditorState Notely.Desktop.Listening Notely.Summary.Connection

/-! ### The property and the condition -/

/-- **The call acts on the event of its own job**: it has completed for that, or failed for that, and the
meeting it goes on with is the one of its transcript. -/
structure Isolated (tr : Transcript) (s : Link) : Prop where
  own : ∀ event own, s.doneBy = some (event, own) → own = some event.jobId
  failed : Call.Deferred s.client.call → ∃ j message, s.doneBy = some (.jobFailed j message, some j)
  completed : ∀ m, Call.meeting s.client.call = some m →
    (∃ j, s.doneBy = some (.jobCompleted j m, some j)) ∧ Table.get m s.engine.world.store.transcripts = some tr

/-- **A call that waits hears no terminal event of another job.** -/
def HearsOwn (s : Link) : Action → Prop
  | .deliver => ∀ event ∈ s.pipe.head?, Call.waits s.client.call → completes event → s.own = some event.jobId
  | _ => True

instance (s : Link) : DecidablePred (HearsOwn s)
  | .deliver =>
    inferInstanceAs
      (Decidable (∀ event ∈ s.pipe.head?, Call.waits s.client.call → completes event → s.own = some event.jobId))
  | .client _ | .engine _ | .submit _ _ | .accepted | .lose | .fetched _ => isTrue trivial

/-! ### What a call goes on with -/

section Client
variable {c c' : Client} {fallback : Fallback} {a : Client.Action} {m : MeetingId} {current : Text} {t : Transcript}
  {jobId : JobId} {heard : Heard} {event : Event}

theorem waits_of_meeting {c : Call} (h : Call.meeting c = some m) : Call.waits c = false := by
  cases c with
  | submitting current t heard | listening current t jobId heard =>
    obtain ⟨r, hdone, -⟩ := Option.bind_eq_some_iff.mp h
    simp [Call.waits, Call.heard, hdone]
  | none | offline current segments | fetching current m | putting => rfl

theorem waits_of_deferred {c : Call} (h : Call.Deferred c) : Call.waits c = false := by
  obtain ⟨heard, d, hheard, hdone⟩ := h
  simp [Call.waits, hheard, hdone]

theorem meeting_await (h : Call.meeting (c.await current t jobId heard).call = some m) :
    heard.done = some (.ok m) := by
  rcases await_cases c current t jobId heard with
    ⟨hdone, heq⟩ | ⟨m', hdone, heq⟩ | ⟨d, hdone, heq⟩
  all_goals rw [heq] at h
  · simp [Call.meeting, hdone] at h
  · rw [hdone, ← Option.some.inj h]
  · cases h

theorem not_deferred_await : ¬ Call.Deferred (c.await current t jobId heard).call := by
  rintro ⟨heard', d, hheard, hd⟩
  rcases await_cases c current t jobId heard with
    ⟨hdone, heq⟩ | ⟨m', hdone, heq⟩ | ⟨d, hdone, heq⟩
  all_goals rw [heq] at hheard
  · obtain rfl := Option.some.inj hheard
    cases hdone.symm.trans hd
  · cases hheard
  · cases hheard

/-- A call goes on with the meeting that it has been told. -/
theorem meeting_hear (h : Call.meeting (c.hear event).call = some m) :
    Call.meeting c.call = some m ∨ Call.waits c.call = true ∧ ∃ j, event = .jobCompleted j m := by
  have hheard {heard : Heard} (h : (heard.hear event).done = some (.ok m)) :
      heard.done = some (.ok m) ∨ heard.done = none ∧ ∃ j, event = .jobCompleted j m := by
    rcases done_hear heard event with heq | ⟨hnone, ⟨j, m', rfl, heq⟩ | ⟨j, message, rfl, heq⟩⟩
    all_goals rw [heq] at h
    · exact Or.inl h
    · cases h
      exact Or.inr ⟨hnone, j, rfl⟩
    · cases h
  unfold Client.hear at h
  split at h
  · next current t heard hcall =>
    rw [hcall]
    obtain ⟨r, hdone, hr⟩ := Option.bind_eq_some_iff.mp h
    cases r with
    | error d => cases hr
    | ok m' =>
      obtain rfl := Option.some.inj hr
      rcases hheard hdone with hdone | ⟨hnone, hevent⟩
      · exact Or.inl (by simp [Call.meeting, hdone, Except.toOption])
      · exact Or.inr ⟨by simp [Call.waits, Call.heard, hnone], hevent⟩
  · next current t jobId heard hcall =>
    rw [hcall]
    rcases hheard (meeting_await h) with hdone | ⟨hnone, hevent⟩
    · exact Or.inl (by simp [Call.meeting, hdone, Except.toOption])
    · exact Or.inr ⟨by simp [Call.waits, Call.heard, hnone], hevent⟩
  · exact Or.inl h

/-- A call has failed for what it has been told. -/
theorem deferred_hear (h : Call.Deferred (c.hear event).call) :
    Call.Deferred c.call ∨ Call.waits c.call = true ∧ ∃ j message, event = .jobFailed j message := by
  unfold Client.hear at h
  split at h
  · next current t heard hcall =>
    obtain ⟨heard', d, hheard, hd⟩ := h
    obtain rfl := Option.some.inj hheard
    rw [hcall]
    rcases done_hear heard event with heq | ⟨hnone, ⟨j, m', rfl, heq⟩ | ⟨j, message, rfl, heq⟩⟩
    · exact Or.inl ⟨heard, d, rfl, heq ▸ hd⟩
    · cases heq.symm.trans hd
    · exact Or.inr ⟨by simp [Call.waits, Call.heard, hnone], j, message, rfl⟩
  · exact absurd h not_deferred_await
  · exact Or.inl h

theorem meeting_alone (ha : alone a = true) (hcalls : calls a = false) (hs : c.step fallback a = some c')
    (h : Call.meeting c'.call = some m) : Call.meeting c.call = some m := by
  rcases alone_cases ha hcalls hs with ⟨heq, -⟩ | ⟨-, -, heq, -⟩ | ⟨heq, -⟩ | ⟨-, heq, -⟩ <;> rw [heq] at h
  · exact h
  all_goals cases h

theorem deferred_alone (ha : alone a = true) (hcalls : calls a = false) (hs : c.step fallback a = some c')
    (h : Call.Deferred c'.call) : Call.Deferred c.call := by
  rcases alone_cases ha hcalls hs with ⟨heq, -⟩ | ⟨-, -, heq, -⟩ | ⟨heq, -⟩ | ⟨-, heq, -⟩ <;> rw [heq] at h
  · exact h
  all_goals
    obtain ⟨heard, d, hheard, -⟩ := h
    cases hheard

/-- A call that starts has heard nothing. -/
theorem fresh_summarise (hcall : c.call = .none) (isConnected : Bool) :
    Call.meeting (c.summarise isConnected).call = none ∧ ¬ Call.Deferred (c.summarise isConnected).call := by
  rcases call_summarise c isConnected with heq | ⟨⟨session, -, heq⟩ | ⟨segments, heq⟩, -⟩
  all_goals rw [heq]
  · rw [hcall]
    exact ⟨rfl, fun ⟨_, _, hheard, _⟩ => by cases hheard⟩
  · refine ⟨rfl, fun ⟨heard, d, hheard, hd⟩ => ?_⟩
    obtain rfl := Option.some.inj hheard
    cases hd
  · exact ⟨rfl, fun ⟨_, _, hheard, _⟩ => by cases hheard⟩

/-- A call that has fetched goes on with nothing. -/
theorem fresh_fetched {result : Except RequestError Text} (hs : c.step fallback (.fetched result) = some c') :
    Call.meeting c'.call = none ∧ ¬ Call.Deferred c'.call := by
  rcases (fetched_cases hs).1 with heq | ⟨-, -, heq⟩ <;> rw [heq] <;>
    exact ⟨rfl, fun ⟨_, _, hheard, _⟩ => by cases hheard⟩

end Client

/-! ### The invariant -/

/-- What the engine owes, and what the call has acted on. -/
structure Inv (tr : Transcript) (s : Link) (ps : Progresses) : Prop where
  served : Served tr s.engine ps s.pipe s.own
  submits : Submits tr s.client
  own : ∀ event own, s.doneBy = some (event, own) → own = some event.jobId
  failed : Call.Deferred s.client.call → ∃ j message, s.doneBy = some (.jobFailed j message, some j)
  completed : ∀ m, Call.meeting s.client.call = some m →
    (∃ j, s.doneBy = some (.jobCompleted j m, some j)) ∧ Kept s.engine ps tr m

section Run
variable {cfg : Config} {fallback : Fallback} {tr : Transcript} {s s' : Link} {ps : Progresses} {a : Action}

theorem Inv.isolated (h : Inv tr s ps) : Isolated tr s :=
  ⟨h.own, h.failed, fun m hm => ⟨(h.completed m hm).1, (h.completed m hm).2.get⟩⟩

theorem inv_start (ed : Editor) (session : MeetingSession) :
    Inv (toTranscript session.segments) (start ed session) fun _ => Phase.opening.going where
  served := served_start
  submits := submits_start ed session
  own := by simp [start]
  failed := by
    rintro ⟨heard, d, hheard, -⟩
    cases hheard
  completed := by
    intro m h
    cases h

/-- An event that the call acts on is of its job. -/
theorem own_hear {event : Event} {rest : List Event} (h : Inv tr s ps) (hpipe : s.pipe = event :: rest)
    (hok : HearsOwn s .deliver) : ∀ e own, (s.hear event rest).doneBy = some (e, own) → own = some e.jobId := by
  intro e own hdone
  simp only [Link.hear] at hdone
  split_ifs at hdone with hcond
  · obtain ⟨hwaits, hcompletes⟩ := Bool.and_eq_true_iff.mp hcond
    obtain ⟨rfl, rfl⟩ := Prod.mk.inj (Option.some.inj hdone)
    exact hok event (by rw [hpipe]; rfl) hwaits hcompletes
  · exact h.own e own hdone

/-- **The step lemma.** -/
theorem inv_step (h : Inv tr s ps) (hok : HearsOwn s a) (hs : step cfg fallback s a = some s') :
    ∃ ps', Inv tr s' ps' := by
  have hmoves := moves_of_step hs
  obtain ⟨ps', hserved, hkept⟩ := served_moves h.served h.submits hmoves
  have hsubmits := submits_step h.submits hmoves
  refine ⟨ps', ?_⟩
  cases hmoves with
  | client ha hcalls hc =>
    refine ⟨hserved, hsubmits, h.own, fun hd => h.failed (deferred_alone ha hcalls hc hd), fun m hm => ?_⟩
    obtain ⟨hdone, hm⟩ := h.completed m (meeting_alone ha hcalls hc hm)
    exact ⟨hdone, hkept m hm⟩
  | call hcall =>
    obtain ⟨hmeeting, hdeferred⟩ := fresh_summarise hcall _
    exact ⟨hserved, hsubmits, by simp, fun hd => absurd hd hdeferred, fun m hm => by cases hmeeting.symm.trans hm⟩
  | engine he | lose hpipe =>
    refine ⟨hserved, hsubmits, h.own, h.failed, fun m hm => ?_⟩
    obtain ⟨hdone, hm⟩ := h.completed m hm
    exact ⟨hdone, hkept m hm⟩
  | submit hcall hown he =>
    refine ⟨hserved, hsubmits, h.own, h.failed, fun m hm => ?_⟩
    obtain ⟨hdone, hm⟩ := h.completed m hm
    exact ⟨hdone, hkept m hm⟩
  | accepted hown hcall =>
    refine ⟨hserved, hsubmits, h.own, fun hd => absurd hd not_deferred_await, fun m hm => ?_⟩
    have hdone := meeting_await hm
    obtain ⟨hdone, hm⟩ := h.completed m (by simp [hcall, Call.meeting, hdone, Except.toOption])
    exact ⟨hdone, hkept m hm⟩
  | deliver hpipe =>
    rename_i event rest
    refine ⟨hserved, hsubmits, own_hear h hpipe hok, fun hd => ?_, fun m hm => ?_⟩
    · rcases deferred_hear hd with hd | ⟨hwaits, j, message, rfl⟩
      · simpa [Link.hear, waits_of_deferred hd] using h.failed hd
      · have hown : s.own = some j := hok (.jobFailed j message) (by rw [hpipe]; rfl) hwaits rfl
        exact ⟨j, message, by simp [Link.hear, hwaits, completes, hown]⟩
    · rcases meeting_hear hm with hm | ⟨hwaits, j, rfl⟩
      · obtain ⟨hdone, hkeep⟩ := h.completed m hm
        exact ⟨by simpa [Link.hear, waits_of_meeting hm] using hdone, hkept m hkeep⟩
      · have hown : s.own = some j := hok (.jobCompleted j m) (by rw [hpipe]; rfl) hwaits rfl
        refine ⟨⟨j, by simp [Link.hear, hwaits, completes, hown]⟩, hkept m (h.served.told j m hown ?_)⟩
        rw [hpipe]
        exact List.mem_cons_self
  | fetched hcall hc =>
    obtain ⟨hnone, hdeferred⟩ := fresh_fetched hc
    exact ⟨hserved, hsubmits, h.own, fun hd => absurd hd hdeferred, fun m hm => by cases hnone.symm.trans hm⟩

/-- An event of another job that a waiting call takes for its own. -/
theorem not_isolated (hok : ¬ HearsOwn s a) (hs : step cfg fallback s a = some s') : ¬ Isolated tr s' := by
  cases a with
  | deliver =>
    intro h
    refine hok fun event hevent hwaits hcompletes => ?_
    obtain ⟨rest, hpipe⟩ : ∃ rest, s.pipe = event :: rest := List.head?_eq_some_iff.mp hevent
    simp only [step, hpipe, Option.some.injEq] at hs
    subst hs
    exact h.own event s.own (by simp [Link.hear, hwaits, hcompletes])
  | client _ | engine _ | submit _ _ | accepted | lose | fetched _ => exact absurd trivial hok

/-- **A call acts on the event of its own job, all along a run, exactly if it hears, while it waits, no terminal
event of another.** -/
theorem isolated_iff (cfg : Config) (fallback : Fallback) (ed : Editor) (session : MeetingSession)
    {as : List Action} (hr : run (step cfg fallback) (start ed session) as = some s) :
    Always (step cfg fallback) (Isolated (toTranscript session.segments)) (start ed session) as ↔
      Along (step cfg fallback) HearsOwn (start ed session) as :=
  always_iff_along (I := fun s => ∃ ps, Inv (toTranscript session.segments) s ps) (fun _ ⟨_, h⟩ => h.isolated)
    (fun _ _ _ ⟨_, h⟩ hok hs => inv_step h hok hs) (fun _ _ _ _ hok hs => not_isolated hok hs)
    ⟨_, inv_start ed session⟩ hr

end Run

/-! ### Runs -/

/-- One chunk for each segment. -/
def plain : Config := ⟨[], { contextChars := 0 }⟩

/-- A session of one segment. -/
def spoken : MeetingSession := ⟨some [['a']], [⟨[], [], ['x']⟩]⟩

/-- A transcript of nothing is processed, as meeting `m`. -/
def processed (m : MeetingId) : List Action := List.replicate 27 (.engine (.step 0 (quiet m)))

/-- Its events are delivered. -/
def delivered : List Action := List.replicate 9 .deliver

/-- The request is accepted, processed, and completed. -/
def answered : List Action := called ++ [.submit ['j'] true, .accepted] ++ processed ['m'] ++ delivered

/-- Alone with the engine a call acts on the event of its own job. -/
theorem isolated_alone : ∃ s,
    run (step plain fun _ t => t) (start (Editor.new SummaryNote.twoNotes) SummaryNote.silent) answered = some s ∧
      Always (step plain fun _ t => t) (Isolated (toTranscript SummaryNote.silent.segments))
        (start (Editor.new SummaryNote.twoNotes) SummaryNote.silent) answered := by
  have hobs : (run (step plain fun _ t => t) (start (Editor.new SummaryNote.twoNotes) SummaryNote.silent)
      answered).map (fun s => Call.meeting s.client.call) = some (some ['m']) := by
    decide +kernel
  obtain ⟨s, hrun, -⟩ := Option.map_eq_some_iff.mp hobs
  exact ⟨s, hrun, (isolated_iff plain _ _ _ hrun).mpr (by decide +kernel)⟩

/-- Another client's meeting is processed before the request is accepted. -/
def overtaken : List Action :=
  called ++ [.engine (.process ['k'] (.transcript none {}) true)] ++ processed ['n'] ++ delivered ++
    [.submit ['j'] true, .accepted]

/-- **A call goes on with the meeting of another job.** -/
theorem completed_by_other : ¬ ∀ (cfg : Config) (fallback : Fallback) (ed : Editor) (session : MeetingSession)
    (as : List Action) (s : Link), run (step cfg fallback) (start ed session) as = some s →
      Always (step cfg fallback) (Isolated (toTranscript session.segments)) (start ed session) as := by
  intro h
  have hobs : (run (step plain fun _ t => t) (start (Editor.new SummaryNote.twoNotes) spoken) overtaken).map
      (fun s => (Call.meeting s.client.call, Table.get ['n'] s.engine.world.store.transcripts)) =
        some (some ['n'], some {}) := by
    decide +kernel
  obtain ⟨s, hrun, hs⟩ := Option.map_eq_some_iff.mp hobs
  obtain ⟨hmeeting, hstored⟩ := Prod.mk.inj hs
  have hget := ((h _ _ _ _ _ _ hrun).last hrun).completed _ hmeeting
  exact absurd (hstored.symm.trans hget.2) (by decide)

end Notely.Summary.Isolation
