import Notely.Summary.Isolation

/-! # What becomes of a capture

A call of `summarise` that ends the session discards the segments. It takes a failure of the job, or a wait
that is over, for the sign that the engine has stored the transcript.

* `Safe`: an ended session has its summary in the note, or its transcript in the store.
* `capture_safe`: this holds as long as the transcript's own job does not fail before its capture, no failure
  of another job is heard, the wait is not over, and a summary finds a note.
* `capture_dropped`: a transcript that could not be stored is discarded. -/

namespace Notely.Summary.Captures

open Notely.Lib Notely.Lib.Lts Notely.Lib.Programs Notely.Lib.Strings Notely.Engine Notely.Engine.Domain
open Notely.Engine.Jobs Notely.Engine.Orchestrator Notely.Engine.Answers Notely.Engine.RunPhases
open Notely.Engine.Custody
open Notely.Engine.Pool (EngineState Running Progresses Choice Each Evolves each_perform each_spawn)
open Notely.Desktop Notely.Desktop.EditorState Notely.Desktop.Listening
open Notely.Summary.Connection Notely.Summary.Isolation

/-! ### The property and the condition -/

/-- The transcript is stored, under a meeting that is stored too. -/
def Stored (tr : Transcript) (e : EngineState) : Prop :=
  ∃ m, (Table.get m e.world.store.meetings).isSome ∧ Table.get m e.world.store.transcripts = some tr

/-- **The capture is not dropped**: when the session has ended, the summary is in the note or the transcript in
the store. -/
def Safe (tr : Transcript) (s : Link) : Prop := s.client.state = .idle → s.put = true ∨ Stored tr s.engine

/-- The step of a run fails, or finds the flag raised, where the transcript may not be stored yet. -/
def Trips (w : World) (c : Choice) {α : Type} : Op α → Prop
  | .isCancelled jobId => w.jobs.isCancelled jobId = true
  | .saveMeeting _ | .saveTranscript _ _ => c.fails.isSome
  | _ => False

/-- The next step of the task trips. -/
def Running.Trips (w : World) (c : Choice) (t : Running) : Prop :=
  match t.rest with
  | .ret _ => False
  | .call o _ => Captures.Trips w c o

/-- **While the transcript is not stored**, the job of the call does not trip, no failure of another job is heard,
the wait is not over, and a summary finds a note. -/
def Careful (tr : Transcript) (s : Link) (a : Action) : Prop :=
  Stored tr s.engine ∨
    match a with
    | .engine (.step i c) =>
      ∀ t, s.engine.tasks[i]? = some t → s.own = some t.jobId → ¬ Running.Trips s.engine.world c t
    | .deliver => ∀ j message, s.pipe.head? = some (.jobFailed j message) → Call.waits s.client.call → s.own = some j
    | .client .timeout => False
    | .client .summarised | .fetched (.ok _) => s.client.ed.openPath.isSome
    | _ => True

/-- In every run whose steps meet `ok`, the capture is not dropped. -/
def NeverDropped (cfg : Config) (fallback : Fallback) (ed : Editor) (session : MeetingSession)
    (ok : Link → Action → Prop) : Prop :=
  ∀ s, Reach (step cfg fallback) ok (start ed session) s → Safe (toTranscript session.segments) s

/-! ### The runs of the job -/

section Engine
variable {cfg : Config} {tr : Transcript} {e e' : EngineState} {ps ps' : Progresses} {a : Pool.Action} {own : JobId}
  {i : ℕ} {t : Running} {p : Progress} {β : Type} {o : Op β} {k : β → Routine (Except PipelineError MeetingId)}
  {c : Choice}

/-- A run of the job has gone wrong only with the transcript stored. -/
def Sound (tr : Transcript) (own : JobId) (e : EngineState) (ps : Progresses) : Prop :=
  Each (fun _ t p => t.jobId = own → p.stopped = true ∨ p.broken = true → Stored tr e) e ps

theorem stored_engine (ho : Orderly e ps) (he : Evolves cfg e ps a e' ps') (h : Stored tr e) : Stored tr e' := by
  obtain ⟨m, hlisted, hm⟩ := h
  exact ⟨m, meeting_step he hlisted, transcript_step ho he hm⟩

theorem stored_of_kept (ho : Orderly e ps) {m : MeetingId} (h : Kept e ps tr m) : Stored tr e :=
  ⟨m, ho.listed m h.stored, h.get⟩

/-- A run that has passed its capture has stored the transcript. -/
theorem OwnTask.stored (ho : Orderly e ps) (h : OwnTask e ps tr t p) {m : MeetingId} (hm : Phase.Past m p.phase) :
    Stored tr e :=
  stored_of_kept ho ⟨h.has m (has_of_past hm), h.past m hm⟩

/-- **A step that does not trip** goes wrong only with the transcript stored. -/
theorem stored_of_wrong (ho : Orderly e ps) (h : OwnTask e ps tr t p) (hp : permits t.source t.jobId p o)
    (htrips : ¬ Trips e.world c o)
    (hw : (next t.source p o (answer e.world o (c.outcome o)).1).stopped = true ∨
      (next t.source p o (answer e.world o (c.outcome o)).1).broken = true) :
    (p.stopped = true ∨ p.broken = true) ∨ Stored tr e := by
  cases o with
  | isCancelled jobId =>
    have hflag : (answer e.world (.isCancelled jobId) (c.outcome (.isCancelled jobId))).1 = false := by
      simpa [Trips, answer] using htrips
    rw [hflag] at hw
    exact Or.inl hw
  | saveMeeting m =>
    have hok : (answer e.world (.saveMeeting m) (c.outcome (.saveMeeting m))).1 = .ok () :=
      write_eq_ok.mpr (Option.not_isSome_iff_eq_none.mp htrips)
    rw [hok] at hw
    exact Or.inl hw
  | saveTranscript id t' =>
    have hok : (answer e.world (.saveTranscript id t') (c.outcome (.saveTranscript id t'))).1 = .ok () :=
      write_eq_ok.mpr (Option.not_isSome_iff_eq_none.mp htrips)
    rw [hok] at hw
    exact Or.inl hw
  | getMeeting id =>
    have hsource := h.source
    rw [hp.2.2] at hsource
    exact Or.inr (stored_of_kept ho hsource)
  | getTranscript id =>
    have hsource := h.source
    rw [hp.2.1] at hsource
    exact Or.inr (stored_of_kept ho hsource)
  | saveMeetingIr id ir =>
    obtain ⟨-, meeting, hph, -⟩ := hp
    exact Or.inr (OwnTask.stored ho h (m := meeting.id) (by rw [hph]; rfl))
  | saveMom id mom =>
    obtain ⟨-, meeting, ir, hph, -⟩ := hp
    exact Or.inr (OwnTask.stored ho h (m := meeting.id) (by rw [hph]; rfl))
  | extractAudio _ _ _ | transcribe _ =>
    obtain ⟨-, -, title, path, haudio⟩ := hp
    have hsource := h.source
    rw [haudio] at hsource
    exact hsource.elim
  | _ => exact Or.inl hw

/-- **The job does not go wrong before its capture**, whatever the engine does. -/
theorem sound_step (h : Sound tr own e ps) (howns : Owns e ps own tr) (ho : Orderly e ps)
    (hok : Stored tr e ∨ ∀ i c, a = .step i c →
      ∀ t, e.tasks[i]? = some t → own = t.jobId → ¬ Running.Trips e.world c t)
    (he : Evolves cfg e ps a e' ps') : Sound tr own e' ps' := by
  have hold : Each (fun _ t p => t.jobId = own → p.stopped = true ∨ p.broken = true → Stored tr e') e ps :=
    fun i t ht hown hw => stored_engine ho he (h i t ht hown hw)
  rcases hok with hstored | hok
  · exact fun i t ht hown hw => stored_engine ho he hstored
  have he' := he
  cases he with
  | task ht hrest hpermits hfresh =>
    rename_i i t β o k c
    refine each_perform (fun j t' _ hj => hold j t' hj) ht fun hown hw => stored_engine ho he' ?_
    have htrips : ¬ Trips e.world c o := by
      have := hok i c rfl t ht hown.symm
      rwa [Running.Trips, hrest] at this
    rcases stored_of_wrong ho (howns.tasks i t ht hown) hpermits htrips hw with hw | hstored
    · exact h i t ht hown hw
    · exact hstored
  | process hfresh | reprocess hfresh =>
    refine each_spawn (e := e.accept _ _ _) hold fun hown hw => ?_
    rcases hw with hw | hw <;> cases hw
  | cancel | interrupted hq | closed hq => exact hold
  | crash => simp [Sound, Each, EngineState.crash]
  | resumed hq hid hstored hw =>
    subst hw
    refine each_spawn (e := { e with world := _ }) hold fun hown hw => ?_
    rcases hw with hw | hw <;> cases hw

/-- **A job that says it has failed** has stored its transcript. -/
theorem sent_failed {message : Text} (h : Sound tr own e ps) (howns : Owns e ps own tr) (ho : Orderly e ps)
    (he : Evolves cfg e ps a e' ps') (hsent : .jobFailed own message ∈ sent e e') : Stored tr e' := by
  refine stored_engine ho he ?_
  rcases sent_cases he hsent with ⟨j, -, heq⟩ | ⟨i, t, ht, hown, -, hcause⟩
  · cases heq
  · rcases hcause with hw | hw | ⟨m, hph⟩
    · exact h i t ht hown.symm (Or.inl hw)
    · exact h i t ht hown.symm (Or.inr hw)
    · exact OwnTask.stored ho (howns.tasks i t ht hown.symm) (m := m.id) (by rw [hph]; rfl)

end Engine

/-! ### The end of a session -/

section Client
variable {c c' : Client} {current : Text} {t : Transcript} {jobId : JobId} {heard : Heard} {event : Event}

/-- The session has ended, or is about to. -/
def Ending (c : Client) : Prop := c.state = .idle ∨ c.call = .putting

theorem ending_await (h : Ending (c.await current t jobId heard)) :
    c.state = .idle ∨ ∃ d, heard.done = some (.error d) := by
  rcases await_cases c current t jobId heard with
    ⟨-, heq⟩ | ⟨m, -, heq⟩ | ⟨d, hdone, -⟩
  · rw [heq] at h
    rcases h with h | h
    · exact Or.inl h
    · cases h
  · rw [heq] at h
    rcases h with h | h
    · exact Or.inl h
    · cases h
  · exact Or.inr ⟨d, hdone⟩

/-- An event ends the session if it tells of a failure. -/
theorem ending_hear (h : Ending (c.hear event)) : Ending c ∨ Call.Deferred c.call ∨
    Call.waits c.call = true ∧ ∃ j message, event = .jobFailed j message := by
  unfold Client.hear at h
  split at h
  · next current t heard hcall =>
    rcases h with h | h
    · exact Or.inl (Or.inl h)
    · cases h
  · next current t jobId heard hcall =>
    rcases ending_await h with h | ⟨d, hd⟩
    · exact Or.inl (Or.inl h)
    · right
      rcases done_hear heard event with heq | ⟨hnone, ⟨j, m, -, heq⟩ | ⟨j, message, rfl, -⟩⟩
      · exact Or.inl ⟨heard, d, by simp [hcall, Call.heard], heq ▸ hd⟩
      · cases heq.symm.trans hd
      · exact Or.inr ⟨by simp [hcall, Call.waits, Call.heard, hnone], j, message, rfl⟩
  · exact Or.inl h

end Client

/-! ### The invariant -/

/-- What the engine owes, and what a call that ends leaves. -/
structure Inv (tr : Transcript) (s : Link) (ps : Progresses) : Prop where
  served : Served tr s.engine ps s.pipe s.own
  submits : Submits tr s.client
  sound : ∀ j, s.own = some j → Sound tr j s.engine ps
  failed : ∀ j message, s.own = some j → .jobFailed j message ∈ s.pipe → Stored tr s.engine
  deferred : Call.Deferred s.client.call → Stored tr s.engine
  ended : Ending s.client → s.put = true ∨ Stored tr s.engine

section Run
variable {cfg : Config} {fallback : Fallback} {tr : Transcript} {s s' : Link} {ps : Progresses} {a : Action}
  {c : Client}

theorem inv_start (ed : Editor) (session : MeetingSession) :
    Inv (toTranscript session.segments) (start ed session) fun _ => Phase.opening.going where
  served := served_start
  submits := submits_start ed session
  sound := by simp [start]
  failed := by simp [start]
  deferred := by
    rintro ⟨heard, d, hheard, -⟩
    cases hheard
  ended := by
    rintro (h | h) <;> cases h

/-- A summary that finds a note is put. -/
theorem put_goOn (hcurrent : s.client.call.current.isSome) (hcall : c.call = .putting)
    (hok : Stored tr s.engine ∨ s.client.ed.openPath.isSome) : (s.goOn c).put = true ∨ Stored tr s.engine := by
  rcases hok with hstored | hnote
  · exact Or.inr hstored
  · exact Or.inl (by simp [Link.goOn, hcurrent, hcall, hnote])

theorem put_mono (h : s.put = true ∨ Stored tr s.engine) : (s.goOn c).put = true ∨ Stored tr s.engine :=
  h.imp (fun h => by simp [Link.goOn, h]) id

/-- An action of the engine. -/
theorem inv_engine {b : Pool.Action} {e : EngineState} (h : Inv tr s ps)
    (hok : Stored tr s.engine ∨ ∀ i c, b = .step i c →
      ∀ t, s.engine.tasks[i]? = some t → s.own = some t.jobId → ¬ Running.Trips s.engine.world c t)
    (he : Pool.step cfg s.engine b = some e) : ∃ ps', Inv tr (s.observe e) ps' := by
  obtain ⟨ps', hserved, hevolves⟩ := served_step h.served he
  have ho := h.served.orderly
  have hstored : Stored tr s.engine → Stored tr e := stored_engine ho hevolves
  refine ⟨ps', hserved, h.submits, fun j hj => ?_, fun j message hj hm => ?_, fun hd => hstored (h.deferred hd),
    fun hend => (h.ended hend).imp id hstored⟩
  · refine sound_step (h.sound j hj) (h.served.owns j hj) ho (hok.imp id fun hok i c hb t ht hown => ?_) hevolves
    exact hok i c hb t ht (hj.trans (congrArg some hown))
  · rcases List.mem_append.mp hm with hm | hm
    · exact hstored (h.failed j message hj hm)
    · exact sent_failed (h.sound j hj) (h.served.owns j hj) ho hevolves hm

/-- The engine accepts the request of the call. -/
theorem inv_submit {jobId : JobId} {written : Bool} {e : EngineState} (h : Inv tr s ps)
    (he : Pool.step cfg s.engine (.process jobId (.transcript none tr) written) = some e) :
    ∃ ps', Inv tr { s.observe e with own := some jobId } ps' := by
  obtain ⟨ps', hserved, hevolves⟩ := served_submit h.served.free he
  have ho := h.served.orderly
  have hstored : Stored tr s.engine → Stored tr e := stored_engine ho hevolves
  have hevolves' := hevolves
  cases hevolves with
  | process hfresh =>
    refine ⟨_, hserved, h.submits, fun j hj => ?_, fun j message hj hm => ?_, fun hd => hstored (h.deferred hd),
      fun hend => (h.ended hend).imp id hstored⟩
    · obtain rfl := Option.some.inj hj
      refine each_spawn (e := s.engine.accept jobId .process written) ?_ fun _ hw => ?_
      · exact fun i t ht hown => absurd (ho.tasks i t ht).job (hown ▸ hfresh)
      · rcases hw with hw | hw <;> cases hw
    · obtain rfl := Option.some.inj hj
      rcases List.mem_append.mp hm with hm | hm
      · exact absurd (h.served.known _ hm) hfresh
      · rcases sent_cases hevolves' hm with ⟨j, -, heq⟩ | ⟨i, t, ht, htells⟩
        · cases heq
        · exact absurd (ho.tasks i t ht).job (htells.1 ▸ hfresh)

/-- An event reaches the client. -/
theorem inv_hear {event : Event} {rest : List Event} (h : Inv tr s ps) (hpipe : s.pipe = event :: rest)
    (hok : Careful tr s .deliver) : Inv tr (s.hear event rest) ps := by
  have hfailed {j : JobId} {message : Text} (hwaits : Call.waits s.client.call = true)
      (hevent : event = .jobFailed j message) : Stored tr s.engine := by
    subst hevent
    rcases hok with hstored | hok
    · exact hstored
    · exact h.failed j message (hok j message (by rw [hpipe]; rfl) hwaits) (by rw [hpipe]; exact List.mem_cons_self)
  have hsub : rest ⊆ s.pipe := hpipe ▸ List.subset_cons_self _ _
  refine ⟨h.served.subset hsub, submits_hear h.submits, h.sound,
    fun j message hj hm => h.failed j message hj (hsub hm), fun hd => ?_, fun hend => ?_⟩
  · rcases deferred_hear hd with hd | ⟨hwaits, j, message, hevent⟩
    · exact h.deferred hd
    · exact hfailed hwaits hevent
  · rcases ending_hear hend with hend | hd | ⟨hwaits, j, message, hevent⟩
    · exact put_mono (h.ended hend)
    · exact Or.inr (h.deferred hd)
    · exact Or.inr (hfailed hwaits hevent)

/-- **The step lemma.** -/
theorem inv_step (h : Inv tr s ps) (hok : Careful tr s a) (hs : step cfg fallback s a = some s') :
    ∃ ps', Inv tr s' ps' := by
  have hmoves := moves_of_step hs
  have hsubmits := submits_step h.submits hmoves
  cases hmoves with
  | client ha hcalls hc =>
    refine ⟨ps, h.served, hsubmits, h.sound, h.failed, fun hd => h.deferred (deferred_alone ha hcalls hc hd), ?_⟩
    rcases alone_cases ha hcalls hc with ⟨hcall, hstate, -⟩ | ⟨rfl, hcurrent, hcall, -, -⟩ | ⟨hcall, hstate, -⟩ |
      ⟨hcause, -, -⟩
    · intro hend
      exact put_mono (h.ended (hend.imp (hstate ▸ ·) (hcall ▸ ·)))
    · exact fun _ => put_goOn hcurrent hcall hok
    · rintro (hend | hend)
      · exact put_mono (h.ended (Or.inl (hstate ▸ hend)))
      · cases hcall.symm.trans hend
    · intro _
      rcases hcause with rfl | hput
      · exact Or.inr (hok.resolve_right id)
      · exact put_mono (h.ended (Or.inr hput))
  | call hcall =>
    rename_i isConnected
    obtain ⟨-, hdeferred⟩ := fresh_summarise hcall isConnected
    refine ⟨ps, h.served.free, hsubmits, by simp, by simp, fun hd => absurd hd hdeferred, fun hend => ?_⟩
    rcases call_summarise s.client isConnected with heq | ⟨hstart, hstate, -⟩
    · exact put_mono (h.ended (by simpa [Ending, Link.goOn, heq] using hend))
    · rcases hend with hend | hend
      · exact put_mono (h.ended (Or.inl (hstate ▸ hend)))
      · rcases hstart with ⟨session, -, hstart⟩ | ⟨segments, hstart⟩
        · cases hstart.symm.trans hend
        · cases hstart.symm.trans hend
  | engine he =>
    rename_i b e
    refine inv_engine h (hok.imp id fun hok i c hb => ?_) he
    subst hb
    exact hok
  | submit hcall hown he =>
    obtain rfl := h.submits.call _ _ _ hcall
    exact inv_submit h he
  | accepted hown hcall =>
    refine ⟨ps, h.served, hsubmits, h.sound, h.failed, fun hd => absurd hd not_deferred_await, fun hend => ?_⟩
    rcases ending_await hend with hend | ⟨d, hd⟩
    · exact put_mono (h.ended (Or.inl hend))
    · exact Or.inr (h.deferred ⟨_, d, by rw [hcall]; rfl, hd⟩)
  | deliver hpipe => exact ⟨ps, inv_hear h hpipe hok⟩
  | lose hpipe =>
    rename_i event rest
    have hsub : rest ⊆ s.pipe := hpipe ▸ List.subset_cons_self _ _
    exact ⟨ps, h.served.subset hsub, hsubmits, h.sound, fun j message hj hm => h.failed j message hj (hsub hm),
      h.deferred, h.ended⟩
  | fetched hcall hc =>
    obtain ⟨hnone, hdeferred⟩ := fresh_fetched hc
    refine ⟨ps, h.served, hsubmits, h.sound, h.failed, fun hd => absurd hd hdeferred, fun hend => ?_⟩
    obtain ⟨hput, hstate, -⟩ := fetched_cases hc
    rcases hput with hcall | ⟨⟨mom, rfl⟩, hcurrent, hcall⟩
    · rcases hend with hend | hend
      · exact put_mono (h.ended (Or.inl (hstate ▸ hend)))
      · cases hcall.symm.trans hend
    · exact put_goOn hcurrent hcall hok

end Run

/-- **A careful run never drops the capture.** -/
theorem capture_safe (cfg : Config) (fallback : Fallback) (ed : Editor) (session : MeetingSession) :
    NeverDropped cfg fallback ed session (Careful (toTranscript session.segments)) := by
  intro s hs
  obtain ⟨ps, h⟩ := hs.inv (I := fun s => ∃ ps, Inv (toTranscript session.segments) s ps) ⟨_, inv_start ed session⟩
    fun s a s' ⟨ps, h⟩ hok hstep => inv_step h hok hstep
  exact fun hidle => h.ended (Or.inl hidle)

/-- Nothing can be written to the store. -/
def full : Choice := { quiet ['m'] with fails := some (.backend []) }

/-- The request is accepted, its meeting is not stored, and the failure is delivered. -/
def refused : List Action :=
  called ++ [.submit ['j'] true, .accepted] ++ List.replicate 6 (.engine (.step 0 full)) ++ [.deliver, .deliver]

/-- **A transcript that could not be stored is discarded**, with the notice that it is saved. -/
theorem capture_dropped : ¬ ∀ (cfg : Config) (fallback : Fallback) (ed : Editor) (session : MeetingSession),
    NeverDropped cfg fallback ed session fun _ _ => True := by
  intro h
  have hobs : (run (step plain fun _ t => t) (start (Editor.new SummaryNote.twoNotes) spoken) refused).map
      (fun s => (s.client.state, s.put, s.engine.world.store.transcripts)) = some (.idle, false, []) := by
    decide +kernel
  obtain ⟨s, hrun, hs⟩ := Option.map_eq_some_iff.mp hobs
  obtain ⟨hidle, hs⟩ := Prod.mk.inj hs
  obtain ⟨hput, hempty⟩ := Prod.mk.inj hs
  have hreach : Reach (step plain fun _ t => t) (fun _ _ => True)
      (start (Editor.new SummaryNote.twoNotes) spoken) s :=
    Reach.of_run (along_of_forall (fun _ _ _ => trivial) _) hrun
  rcases h plain _ _ spoken s hreach hidle with hput' | ⟨m, -, hm⟩
  · exact absurd (hput.symm.trans hput') (by decide)
  · rw [hempty] at hm
    cases hm

end Notely.Summary.Captures
