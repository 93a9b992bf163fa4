import Notely.Desktop.SummaryNote
import Notely.Engine.Custody

/-! # The client and the engine

A call of `summarise` against the engine. The engine accepts the request of the call once, among requests of
others; its events reach the client in the order they are sent, but some are lost when the client lags
behind or the connection is down.

* `step`: one action of the client, of the engine, or of what is between them.
* `Served`: what the engine owes to the transcript of the session; `served_step`, `served_submit`. -/

namespace Notely.Summary.Connection

open Notely.Lib Notely.Lib.Strings Notely.Engine Notely.Engine.Domain Notely.Engine.Jobs Notely.Engine.Orchestrator
open Notely.Engine.RunPhases Notely.Engine.Pool Notely.Engine.Custody
open Notely.Desktop.EditorState Notely.Desktop.Listening

/-! ### The state -/

/-- The client, the engine, and the events on their way; the job that the request of the call has started; the
event that has completed `done`, with that job as it was then; and whether a summary has been put into a
note. -/
structure Link where
  client : Client
  engine : EngineState := {}
  pipe : List Event := []
  own : Option JobId := none
  doneBy : Option (Event × Option JobId) := none
  put : Bool := false

/-- A session in review over an editor, and an engine that has done nothing yet. -/
def start (ed : Editor) (session : MeetingSession) : Link :=
  { client := (Desktop.SummaryNote.start ed session).client }

/-- What a call has heard. -/
def Call.heard : Call → Option Heard
  | .submitting _ _ heard | .listening _ _ _ heard => some heard
  | _ => none

/-- The call waits for an event. -/
def Call.waits (c : Call) : Bool := (Call.heard c).any fun heard => heard.done.isNone

/-- The meeting a call goes on with. -/
def Call.meeting : Call → Option MeetingId
  | .submitting _ _ heard | .listening _ _ _ heard => heard.done.bind Except.toOption
  | .fetching _ m => some m
  | _ => none

/-- The call has heard that its job failed. -/
def Call.Deferred (c : Call) : Prop := ∃ heard d, Call.heard c = some heard ∧ heard.done = some (.error d)

/-- The event completes `done`. -/
def completes : Event → Bool
  | .jobCompleted _ _ | .jobFailed _ _ => true
  | _ => false

/-! ### Steps -/

inductive Action
  /-- A step of the client alone. -/
  | client (a : Client.Action)
  /-- An action of the engine. -/
  | engine (a : Pool.Action)
  /-- The engine accepts the request of the call. -/
  | submit (jobId : JobId) (written : Bool)
  /-- The reply to it reaches the client. -/
  | accepted
  /-- The next event reaches the client. -/
  | deliver
  /-- The next event is lost. -/
  | lose
  /-- `GetMom` ends. -/
  | fetched (result : Except RequestError Text)

/-- The steps of the client that do not come from the engine. -/
def alone : Client.Action → Bool
  | .accepted _ | .hear _ | .fetched _ => false
  | _ => true

/-- The step starts a call. -/
def calls : Client.Action → Bool
  | .summarise _ => true
  | _ => false

/-- The client after a step: a summary may have been put. -/
def Link.goOn (s : Link) (c : Client) : Link :=
  { s with
    client := c
    put := s.put || (c.call = .putting && s.client.call.current.isSome && s.client.ed.openPath.isSome) }

/-- The engine after a step: its events are on their way. -/
def Link.observe (s : Link) (e : EngineState) : Link :=
  { s with engine := e, pipe := s.pipe ++ sent s.engine e }

/-- An event reaches the client. -/
def Link.hear (s : Link) (event : Event) (rest : List Event) : Link :=
  { s.goOn (s.client.hear event) with
    pipe := rest
    doneBy := if Call.waits s.client.call && completes event then some (event, s.own) else s.doneBy }

/-- The engine's reply to `GetMom`. -/
def Replies (e : EngineState) (m : MeetingId) : Except RequestError Text → Prop
  | .ok mom => Table.get m e.world.store.moms = some mom
  | .error _ => True

instance (e : EngineState) (m : MeetingId) : DecidablePred (Replies e m)
  | .ok mom => inferInstanceAs (Decidable (Table.get m e.world.store.moms = some mom))
  | .error _ => isTrue trivial

/-- **One action of the client, of the engine, or of what is between them.** -/
def step (cfg : Config) (fallback : Fallback) (s : Link) : Action → Option Link
  | .client a =>
    if alone a then
      (s.client.step fallback a).map fun c =>
        if calls a then { s.goOn c with own := none, doneBy := none } else s.goOn c
    else none
  | .engine a => (Pool.step cfg s.engine a).map s.observe
  | .submit jobId written =>
    match s.client.call, s.own with
    | .submitting _ transcript _, none =>
      (Pool.step cfg s.engine (.process jobId (.transcript none transcript) written)).map fun e =>
        { s.observe e with own := some jobId }
    | _, _ => none
  | .accepted =>
    match s.own with
    | some jobId => (s.client.step fallback (.accepted jobId)).map s.goOn
    | none => none
  | .deliver =>
    match s.pipe with
    | event :: rest => some (s.hear event rest)
    | [] => none
  | .lose =>
    match s.pipe with
    | _ :: rest => some { s with pipe := rest }
    | [] => none
  | .fetched result =>
    match s.client.call with
    | .fetching _ m =>
      if Replies s.engine m result then (s.client.step fallback (.fetched result)).map s.goOn else none
    | _ => none

/-- **What an action does.** -/
inductive Moves (cfg : Config) (fallback : Fallback) (s : Link) : Action → Link → Prop
  | client {a : Client.Action} {c : Client} (ha : alone a = true) (hcalls : calls a = false)
      (hc : s.client.step fallback a = some c) : Moves cfg fallback s (.client a) (s.goOn c)
  | call {isConnected : Bool} (hcall : s.client.call = .none) :
      Moves cfg fallback s (.client (.summarise isConnected))
        { s.goOn (s.client.summarise isConnected) with own := none, doneBy := none }
  | engine {a : Pool.Action} {e : EngineState} (he : Pool.step cfg s.engine a = some e) :
      Moves cfg fallback s (.engine a) (s.observe e)
  | submit {jobId : JobId} {written : Bool} {current : Text} {transcript : Transcript} {heard : Heard}
      {e : EngineState} (hcall : s.client.call = .submitting current transcript heard) (hown : s.own = none)
      (he : Pool.step cfg s.engine (.process jobId (.transcript none transcript) written) = some e) :
      Moves cfg fallback s (.submit jobId written) { s.observe e with own := some jobId }
  | accepted {jobId : JobId} {current : Text} {transcript : Transcript} {heard : Heard} (hown : s.own = some jobId)
      (hcall : s.client.call = .submitting current transcript heard) :
      Moves cfg fallback s .accepted (s.goOn (s.client.await current transcript jobId heard))
  | deliver {event : Event} {rest : List Event} (hpipe : s.pipe = event :: rest) :
      Moves cfg fallback s .deliver (s.hear event rest)
  | lose {event : Event} {rest : List Event} (hpipe : s.pipe = event :: rest) :
      Moves cfg fallback s .lose { s with pipe := rest }
  | fetched {result : Except RequestError Text} {current : Text} {m : MeetingId} {c : Client}
      (hcall : s.client.call = .fetching current m) (hc : s.client.step fallback (.fetched result) = some c) :
      Moves cfg fallback s (.fetched result) (s.goOn c)

theorem moves_of_step {cfg : Config} {fallback : Fallback} {s s' : Link} {a : Action}
    (hs : step cfg fallback s a = some s') : Moves cfg fallback s a s' := by
  cases a with
  | client a =>
    simp only [step, Option.ite_none_right_eq_some, Option.map_eq_some_iff] at hs
    obtain ⟨ha, c, hc, rfl⟩ := hs
    cases a with
    | summarise isConnected =>
      simp only [Client.step, Option.ite_none_right_eq_some, Option.some.injEq] at hc
      obtain ⟨hcall, rfl⟩ := hc
      exact .call hcall
    | _ => exact .client ha rfl hc
  | engine a =>
    obtain ⟨e, he, rfl⟩ := Option.map_eq_some_iff.mp hs
    exact .engine he
  | submit jobId written =>
    simp only [step] at hs
    split at hs
    · next current transcript heard hcall hown =>
      obtain ⟨e, he, rfl⟩ := Option.map_eq_some_iff.mp hs
      exact .submit hcall hown he
    · cases hs
  | accepted =>
    simp only [step] at hs
    split at hs
    · next jobId hown =>
      obtain ⟨c, hc, rfl⟩ := Option.map_eq_some_iff.mp hs
      simp only [Client.step] at hc
      split at hc
      · next current transcript heard hcall =>
        obtain rfl := Option.some.inj hc
        exact .accepted hown hcall
      · cases hc
    · cases hs
  | deliver =>
    simp only [step] at hs
    split at hs
    · next event rest hpipe =>
      obtain rfl := Option.some.inj hs
      exact .deliver hpipe
    · cases hs
  | lose =>
    simp only [step] at hs
    split at hs
    · next event rest hpipe =>
      obtain rfl := Option.some.inj hs
      exact .lose hpipe
    · cases hs
  | fetched result =>
    simp only [step] at hs
    split at hs
    · next current m hcall =>
      simp only [Option.ite_none_right_eq_some, Option.map_eq_some_iff] at hs
      obtain ⟨-, c, hc, rfl⟩ := hs
      exact .fetched hcall hc
    · cases hs

/-! ### What the client does -/

/-- What is submitted is the transcript of the session. -/
structure Submits (tr : Transcript) (c : Client) : Prop where
  session : ∀ session, c.session = some session → toTranscript session.segments = tr
  call : ∀ current t heard, c.call = .submitting current t heard → t = tr

section Client
variable {fallback : Fallback} {c c' : Client} {a : Client.Action} {tr : Transcript} {m : MeetingId} {current : Text}
  {t : Transcript} {jobId : JobId} {heard : Heard} {event : Event}

/-- What a call goes on with once its request is accepted. -/
theorem await_cases (c : Client) (current : Text) (t : Transcript) (jobId : JobId) (heard : Heard) :
    (heard.done = none ∧ c.await current t jobId heard = { c with call := .listening current t jobId heard }) ∨
    (∃ m, heard.done = some (.ok m) ∧ c.await current t jobId heard = { c with call := .fetching current m }) ∨
    ∃ d, heard.done = some (.error d) ∧ c.await current t jobId heard = c.deferred d := by
  unfold Client.await
  cases heard.done with
  | none => exact Or.inl ⟨rfl, rfl⟩
  | some r =>
    cases r with
    | ok m => exact Or.inr (Or.inl ⟨m, rfl, rfl⟩)
    | error d => exact Or.inr (Or.inr ⟨d, rfl, rfl⟩)

/-- What an event completes `done` with. -/
theorem done_hear (heard : Heard) (event : Event) : (heard.hear event).done = heard.done ∨ heard.done = none ∧
    ((∃ j m, event = .jobCompleted j m ∧ (heard.hear event).done = some (.ok m)) ∨
      ∃ j message, event = .jobFailed j message ∧
        (heard.hear event).done = some (.error ⟨heard.meetingId, message⟩)) := by
  unfold Heard.hear
  split_ifs with hd
  · exact Or.inl rfl
  · have hnone : heard.done = none := by simpa using hd
    cases event with
    | jobCompleted j m => exact Or.inr ⟨hnone, Or.inl ⟨j, m, rfl, rfl⟩⟩
    | jobFailed j message => exact Or.inr ⟨hnone, Or.inr ⟨j, message, rfl, rfl⟩⟩
    | _ => exact Or.inl rfl

/-- A step of the client alone: the editor's, the offline summary, a request or a wait that fails, the end of the
call. -/
theorem alone_cases (ha : alone a = true) (hcalls : calls a = false) (hs : c.step fallback a = some c') :
    (c'.call = c.call ∧ c'.state = c.state ∧ c'.session = c.session) ∨
      (a = .summarised ∧ c.call.current.isSome ∧ c'.call = .putting ∧ c'.state = c.state ∧ c'.session = c.session) ∨
      (c'.call = .none ∧ c'.state = c.state ∧ c'.session = c.session) ∨
      ((a = .timeout ∨ c.call = .putting) ∧ c'.call = .none ∧ c'.session = none) := by
  cases a with
  | editor b =>
    cases b with
    | setContent markdown => cases hs
    | _ =>
      simp only [Client.step, Option.map_eq_some_iff] at hs
      obtain ⟨ed, -, rfl⟩ := hs
      exact Or.inl ⟨rfl, rfl, rfl⟩
  | summarise isConnected => cases hcalls
  | accepted jobId => cases ha
  | hear event => cases ha
  | fetched result => cases ha
  | summarised =>
    simp only [Client.step] at hs
    split at hs
    · next current segments hc =>
      obtain rfl := Option.some.inj hs
      exact Or.inr (Or.inl ⟨rfl, by simp [hc, Call.current], rfl, rfl, rfl⟩)
    · cases hs
  | requestFailed e =>
    simp only [Client.step] at hs
    split at hs
    · obtain rfl := Option.some.inj hs
      exact Or.inr (Or.inr (Or.inl ⟨rfl, rfl, rfl⟩))
    · cases hs
  | timeout =>
    simp only [Client.step] at hs
    split at hs
    · obtain rfl := Option.some.inj hs
      exact Or.inr (Or.inr (Or.inr ⟨Or.inl rfl, rfl, rfl⟩))
    · cases hs
  | written =>
    simp only [Client.step, Option.ite_none_right_eq_some, Option.some.injEq] at hs
    obtain ⟨⟨hc, -⟩, rfl⟩ := hs
    exact Or.inr (Or.inr (Or.inr ⟨Or.inr hc, rfl, rfl⟩))

/-- `GetMom` ends with the summary, or the call fails. -/
theorem fetched_cases {result : Except RequestError Text} (hs : c.step fallback (.fetched result) = some c') :
    (c'.call = .none ∨ (∃ mom, result = .ok mom) ∧ c.call.current.isSome ∧ c'.call = .putting) ∧
      c'.state = c.state ∧ c'.session = c.session := by
  simp only [Client.step] at hs
  split at hs
  · next current m mom hc =>
    obtain rfl := Option.some.inj hs
    exact ⟨Or.inr ⟨⟨mom, rfl⟩, by simp [hc, Call.current], rfl⟩, rfl, rfl⟩
  · obtain rfl := Option.some.inj hs
    exact ⟨Or.inl rfl, rfl, rfl⟩
  · cases hs

/-- A call that starts has heard nothing. -/
theorem call_summarise (c : Client) (isConnected : Bool) : c.summarise isConnected = c ∨
    ((∃ session, c.session = some session ∧
      (c.summarise isConnected).call = .submitting c.ed.text (toTranscript session.segments) {}) ∨
        ∃ segments, (c.summarise isConnected).call = .offline c.ed.text segments) ∧
      (c.summarise isConnected).state = c.state ∧ (c.summarise isConnected).session = c.session := by
  unfold Client.summarise
  split
  · next session hstate hsession =>
    split_ifs
    · exact Or.inl rfl
    · exact Or.inr ⟨Or.inl ⟨session, hsession, rfl⟩, rfl, rfl⟩
    · exact Or.inr ⟨Or.inr ⟨session.segments, rfl⟩, rfl, rfl⟩
  · exact Or.inl rfl

theorem submits_start (ed : Editor) (session : MeetingSession) :
    Submits (toTranscript session.segments) (start ed session).client :=
  ⟨fun session' h => by rw [← Option.some.inj h], fun _ _ _ h => by cases h⟩

theorem submits_alone (h : Submits tr c) (ha : alone a = true) (hcalls : calls a = false)
    (hs : c.step fallback a = some c') : Submits tr c' := by
  rcases alone_cases ha hcalls hs with ⟨hcall, -, hsession⟩ | ⟨-, -, hcall, -, hsession⟩ | ⟨hcall, -, hsession⟩ |
    ⟨-, hcall, hsession⟩
  · exact ⟨hsession ▸ h.session, hcall ▸ h.call⟩
  · exact ⟨hsession ▸ h.session, by simp [hcall]⟩
  · exact ⟨hsession ▸ h.session, by simp [hcall]⟩
  · exact ⟨by simp [hsession], by simp [hcall]⟩

theorem submits_await (h : Submits tr c) : Submits tr (c.await current t jobId heard) := by
  rcases await_cases c current t jobId heard with
    ⟨-, heq⟩ | ⟨m, -, heq⟩ | ⟨d, -, heq⟩
  all_goals rw [heq]
  · exact ⟨h.session, by simp⟩
  · exact ⟨h.session, by simp⟩
  · exact ⟨by simp [Client.deferred, Client.endSession], by simp [Client.deferred, Client.endSession]⟩

theorem submits_hear (h : Submits tr c) : Submits tr (c.hear event) := by
  unfold Client.hear
  split
  · next current t heard hcall =>
    refine ⟨h.session, fun _ t' _ heq => ?_⟩
    obtain ⟨-, rfl, -⟩ := Call.submitting.inj heq
    exact h.call _ _ _ hcall
  · exact submits_await h
  · exact h

theorem submits_summarise (h : Submits tr c) (isConnected : Bool) : Submits tr (c.summarise isConnected) := by
  rcases call_summarise c isConnected with heq | ⟨hcall, -, hsession⟩
  · rwa [heq]
  · refine ⟨hsession ▸ h.session, fun current t heard heq => ?_⟩
    rcases hcall with ⟨session, hs, hcall⟩ | ⟨segments, hcall⟩
    · obtain ⟨-, rfl, -⟩ := Call.submitting.inj (hcall.symm.trans heq)
      exact h.session session hs
    · cases hcall.symm.trans heq

end Client

section Step
variable {cfg : Config} {fallback : Fallback} {s s' : Link} {a : Action} {tr : Transcript}

/-- **What is submitted** is always the transcript of the session. -/
theorem submits_step (h : Submits tr s.client) (hs : Moves cfg fallback s a s') : Submits tr s'.client := by
  cases hs with
  | client ha hcalls hc => exact submits_alone h ha hcalls hc
  | call hcall => exact submits_summarise h _
  | accepted hown hcall => exact submits_await h
  | deliver hpipe => exact submits_hear h
  | fetched hcall hc =>
    obtain ⟨hcall, -, hsession⟩ := fetched_cases hc
    refine ⟨hsession ▸ h.session, fun current t heard heq => ?_⟩
    rcases hcall with hnone | ⟨-, -, hput⟩
    · cases hnone.symm.trans heq
    · cases hput.symm.trans heq
  | engine he | submit hcall hown he | lose hpipe => exact h

end Step

/-! ### What the engine owes -/

/-- The engine is in order, the events on their way are of jobs it knows, and the job of the call keeps to the
transcript. -/
structure Served (tr : Transcript) (e : EngineState) (ps : Progresses) (pipe : List Event) (own : Option JobId) :
    Prop where
  orderly : Orderly e ps
  known : ∀ event ∈ pipe, event.jobId ∈ e.issued
  owns : ∀ j, own = some j → Owns e ps j tr
  told : ∀ j m, own = some j → .jobCompleted j m ∈ pipe → Kept e ps tr m

section Engine
variable {cfg : Config} {tr : Transcript} {e e' : EngineState} {ps ps' : Progresses} {a : Pool.Action}
  {pipe : List Event} {own : Option JobId} {jobId : JobId}

theorem served_start : Served tr {} (fun _ => Phase.opening.going) [] none where
  orderly := orderly_start
  known := by simp
  owns := by simp
  told := by simp

theorem Served.subset (h : Served tr e ps pipe own) {pipe' : List Event} (hsub : pipe' ⊆ pipe) :
    Served tr e ps pipe' own :=
  ⟨h.orderly, fun event he => h.known event (hsub he), h.owns, fun j m hj hm => h.told j m hj (hsub hm)⟩

theorem Served.free (h : Served tr e ps pipe own) : Served tr e ps pipe none :=
  ⟨h.orderly, h.known, by simp, by simp⟩

theorem known_step (h : Served tr e ps pipe own) (he : Evolves cfg e ps a e' ps') :
    ∀ event ∈ pipe ++ sent e e', event.jobId ∈ e'.issued := by
  intro event hevent
  rcases List.mem_append.mp hevent with hevent | hevent
  · exact issued_step he (h.known event hevent)
  · exact sent_known h.orderly he hevent

/-- **Whatever the engine does** keeps what it owes. -/
theorem served_step (h : Served tr e ps pipe own) (hs : Pool.step cfg e a = some e') :
    ∃ ps', Served tr e' ps' (pipe ++ sent e e') own ∧ Evolves cfg e ps a e' ps' := by
  obtain ⟨ps', hplans, he⟩ := plans_step h.orderly.plans hs
  have horderly := orderly_step h.orderly hplans he
  refine ⟨ps', ⟨horderly, known_step h he, fun j hj => owns_step (h.owns j hj) h.orderly he, ?_⟩, he⟩
  intro j m hj hm
  rcases List.mem_append.mp hm with hm | hm
  · exact kept_step he (h.told j m hj hm)
  · exact sent_completed (h.owns j hj) he hm

/-- **The engine accepts the request of the call.** -/
theorem served_submit {title : Option Text} {written : Bool} (h : Served tr e ps pipe none)
    (hs : Pool.step cfg e (.process jobId (.transcript title tr) written) = some e') :
    ∃ ps', Served tr e' ps' (pipe ++ sent e e') (some jobId) ∧
      Evolves cfg e ps (.process jobId (.transcript title tr) written) e' ps' := by
  obtain ⟨ps', hplans, he⟩ := plans_step h.orderly.plans hs
  have hknown := known_step h he
  have horderly := orderly_step h.orderly hplans he
  have he' := he
  have hpipe {m : MeetingId} (hfresh : jobId ∉ e.issued) (hm : .jobCompleted jobId m ∈ pipe ++ sent e e') :
      False := by
    rcases List.mem_append.mp hm with hm | hm
    · exact hfresh (h.known _ hm)
    · rcases sent_cases he hm with ⟨j, -, heq⟩ | ⟨i, t, ht, htells⟩
      · cases heq
      · exact hfresh (htells.1 ▸ (h.orderly.tasks i t ht).job)
  cases he with
  | process hfresh =>
    refine ⟨_, ⟨horderly, hknown, fun j hj => ?_, fun j m hj hm => ?_⟩, he'⟩
    · obtain rfl := Option.some.inj hj
      exact owns_start h.orderly hfresh
    · obtain rfl := Option.some.inj hj
      exact (hpipe hfresh hm).elim

/-- **Whatever happens** keeps what the engine owes, and what is stored for good. -/
theorem served_moves {fallback : Fallback} {s s' : Link} {b : Action} (h : Served tr s.engine ps s.pipe s.own)
    (hsub : Submits tr s.client) (hs : Moves cfg fallback s b s') :
    ∃ ps', Served tr s'.engine ps' s'.pipe s'.own ∧ ∀ m, Kept s.engine ps tr m → Kept s'.engine ps' tr m := by
  cases hs with
  | client ha hcalls hc => exact ⟨ps, h, fun _ => id⟩
  | call hcall => exact ⟨ps, h.free, fun _ => id⟩
  | engine he =>
    obtain ⟨ps', hserved, hevolves⟩ := served_step h he
    exact ⟨ps', hserved, fun _ => kept_step hevolves⟩
  | submit hcall hown he =>
    obtain rfl := hsub.call _ _ _ hcall
    obtain ⟨ps', hserved, hevolves⟩ := served_submit h.free he
    exact ⟨ps', hserved, fun _ => kept_step hevolves⟩
  | accepted hown hcall => exact ⟨ps, h, fun _ => id⟩
  | deliver hpipe => exact ⟨ps, h.subset (hpipe ▸ List.subset_cons_self _ _), fun _ => id⟩
  | lose hpipe => exact ⟨ps, h.subset (hpipe ▸ List.subset_cons_self _ _), fun _ => id⟩
  | fetched hcall hc => exact ⟨ps, h, fun _ => id⟩

end Engine

/-! ### A run -/

/-- Nothing fails but the analysis, and `m` is drawn. -/
def quiet (m : MeetingId) : Choice where
  written := true
  drawn := (m, 0)
  fails := none
  media := .error (.failed [])
  asr := .error (.failed [])
  found := .error (.parse [])
  synthesized := .error (.parse [])

/-- A note is opened and a call is started. -/
def called : List Action :=
  [.client (.editor (.open [['a']])), .client (.editor (.complete 0 .ok)), .client (.editor (.complete 0 .ok)),
    .client (.summarise true)]

end Notely.Summary.Connection
