import Notely.Summary.Isolation

/-! # How often a session is captured

A call that fails keeps the session in review, and the user calls `summarise` again: another request with the
same transcript. A request whose call has failed may still be on its way, and the engine may accept it later.
`start_processing` draws an id for whatever it is given.

* `Retries`, `step`: the client and the engine, with the requests whose call has failed.
* `AtMostOne`: the transcript is stored under one meeting.
* `captured_once`: this holds as long as a request is accepted only while nothing has come, and nothing can still
  come, of the ones before.
* `captured_twice`: a session whose first request is answered late is captured twice. -/

namespace Notely.Summary.Duplicates

open Notely.Lib Notely.Lib.Lts Notely.Lib.Programs Notely.Lib.Strings Notely.Engine Notely.Engine.Domain
open Notely.Engine.Jobs Notely.Engine.Orchestrator Notely.Engine.Answers Notely.Engine.RunPhases
open Notely.Engine.Custody
open Notely.Engine.Pool (EngineState Running Progresses Choice Each Evolves each_perform each_spawn)
open Notely.Desktop Notely.Desktop.EditorState Notely.Desktop.Listening
open Notely.Summary.Connection Notely.Summary.Isolation

/-! ### Calls that fail -/

/-- The client and the engine; the requests on their way whose call has failed; and the jobs that the requests of
the session have started. -/
structure Retries where
  link : Link
  flight : List Transcript := []
  ours : List JobId := []

/-- The request of the call, which the engine has not accepted yet. -/
def pending (s : Link) : List Transcript :=
  match s.client.call, s.own with
  | .submitting _ transcript _, none => [transcript]
  | _, _ => []

inductive Action
  /-- What happens between the client and the engine. -/
  | link (a : Connection.Action)
  /-- The engine accepts a request whose call has failed. -/
  | late (i : ℕ) (jobId : JobId) (written : Bool)

/-- A call that fails leaves its request on its way, and the requests on their way are lost with the process. -/
def Retries.goOn (s : Retries) (a : Connection.Action) (l : Link) : Retries :=
  match a with
  | .submit jobId _ => { s with link := l, ours := jobId :: s.ours }
  | .client (.requestFailed _) => { s with link := l, flight := s.flight ++ pending s.link }
  | .engine (.crash _ _) => { s with link := l, flight := [] }
  | _ => { s with link := l }

def step (cfg : Config) (fallback : Fallback) (s : Retries) : Action → Option Retries
  | .link a => (Connection.step cfg fallback s.link a).map (s.goOn a)
  | .late i jobId written =>
    match s.flight[i]? with
    | none => none
    | some transcript =>
      (Pool.step cfg s.link.engine (.process jobId (.transcript none transcript) written)).map fun e =>
        { link := s.link.observe e, flight := s.flight.eraseIdx i, ours := jobId :: s.ours }

/-- A session in review, as `Connection.start`. -/
def start (ed : Editor) (session : MeetingSession) : Retries := { link := Connection.start ed session }

/-! ### The property and the condition -/

/-- The transcript is stored under `m`. -/
def HeldAt (tr : Transcript) (e : EngineState) (m : MeetingId) : Prop :=
  Table.get m e.world.store.transcripts = some tr

/-- **At most one meeting has the transcript.** -/
def AtMostOne (tr : Transcript) (e : EngineState) : Prop := ∀ m m', HeldAt tr e m → HeldAt tr e m' → m = m'

/-- The transcript is stored. -/
def Held (tr : Transcript) (e : EngineState) : Prop := tr ∈ e.world.store.transcripts.map Prod.snd

instance (tr : Transcript) (e : EngineState) : Decidable (Held tr e) :=
  inferInstanceAs (Decidable (tr ∈ e.world.store.transcripts.map Prod.snd))

/-- The run stores a transcript. -/
def captures : Source → Bool
  | .process _ => true
  | .reprocess _ => false

/-- The task is under way with the capture of one of the jobs. -/
def Running.Captures (ours : List JobId) (t : Running) : Prop :=
  t.jobId ∈ ours ∧ t.ended = false ∧ captures t.source = true

instance (ours : List JobId) (t : Running) : Decidable (Running.Captures ours t) :=
  inferInstanceAs (Decidable (t.jobId ∈ ours ∧ t.ended = false ∧ captures t.source = true))

/-- The transcript that an operation stores. -/
def stores {α : Type} : Op α → Option Transcript
  | .saveTranscript _ t => some t
  | _ => none

/-- The transcript that the next step of the task stores. -/
def Running.stores (t : Running) : Option Transcript :=
  match t.rest with
  | .ret _ => none
  | .call o _ => Duplicates.stores o

/-- **A request of the session is accepted** only while its transcript is not stored and no job of an earlier one
is under way; and no other job stores the same transcript. -/
def Once (tr : Transcript) (s : Retries) : Action → Prop
  | .link (.submit _ _) | .late _ _ _ =>
    ¬ Held tr s.link.engine ∧ ∀ t ∈ s.link.engine.tasks, ¬ Running.Captures s.ours t
  | .link (.engine (.step i _)) =>
    ∀ t ∈ s.link.engine.tasks[i]?, Running.stores t = some tr → t.jobId ∈ s.ours
  | _ => True

instance (tr : Transcript) (s : Retries) : DecidablePred (Once tr s)
  | .link (.submit _ _) | .late _ _ _ =>
    inferInstanceAs (Decidable (¬ Held tr s.link.engine ∧ ∀ t ∈ s.link.engine.tasks, ¬ Running.Captures s.ours t))
  | .link (.engine (.step i _)) =>
    inferInstanceAs (Decidable (∀ t ∈ s.link.engine.tasks[i]?, Running.stores t = some tr → t.jobId ∈ s.ours))
  | .link (.engine (.process _ _ _)) | .link (.engine (.reprocess _ _ _)) | .link (.engine (.cancel _))
  | .link (.engine (.crash _ _)) | .link (.engine (.recover _)) | .link (.client _) | .link .accepted
  | .link .deliver | .link .lose | .link (.fetched _) => isTrue trivial

/-- In every run whose steps meet `ok`, the session is captured at most once. -/
def CapturedOnce (cfg : Config) (fallback : Fallback) (ed : Editor) (session : MeetingSession)
    (ok : Retries → Action → Prop) : Prop :=
  ∀ s, Reach (step cfg fallback) ok (start ed session) s → AtMostOne (toTranscript session.segments) s.link.engine

/-! ### The tasks of the session -/

section Operation
variable {source : Source} {jobId : JobId} {p : Progress} {w : World} {α : Type} {o : Op α} {m : MeetingId}
  {tr : Transcript}

/-- **A transcript found after an operation** was there before, or the operation stores it under the meeting of
its run. -/
theorem held_answer {c : Outcome o} (h : permits source jobId p o)
    (hm : Table.get m (answer w o c).2.store.transcripts = some tr) :
    Table.get m w.store.transcripts = some tr ∨
      stores o = some tr ∧ captures source = true ∧ ∃ meeting, p.phase = .recorded meeting ∧ meeting.id = m := by
  cases o with
  | saveTranscript id t =>
    obtain ⟨-, ht, meeting, hph, rfl⟩ := h
    cases c with
    | some e => exact Or.inl hm
    | none =>
      have hm : Table.get m (Table.put meeting.id t w.store.transcripts) = some tr := hm
      by_cases hid : m = meeting.id
      · rw [hid, Table.get_put_self] at hm
        refine Or.inr ⟨hm, ?_, meeting, hph, hid.symm⟩
        cases source with
        | process input => rfl
        | reprocess id => exact ht.elim
      · rw [Table.get_put_of_ne hid] at hm
        exact Or.inl hm
  | saveMeeting _ | saveMeetingIr _ _ | saveMom _ _ | saveProcessingStatus _ _ => cases c <;> exact Or.inl hm
  | getMeeting _ | getTranscript _ => cases c <;> exact Or.inl hm
  | _ => exact Or.inl hm

end Operation

section Engine
variable {cfg : Config} {tr : Transcript} {ours : List JobId} {e e' : EngineState} {ps ps' : Progresses}
  {a : Pool.Action} {i j : ℕ} {t : Running} {β : Type} {o : Op β}
  {k : β → Routine (Except PipelineError MeetingId)} {c : Choice} {jobId : JobId} {source : Source}

/-- Task `i` is under way with the capture of one of the jobs. -/
def CapturesAt (ours : List JobId) (e : EngineState) (i : ℕ) : Prop :=
  ∃ t, e.tasks[i]? = some t ∧ Running.Captures ours t

/-- **At most one task captures the session**, and its meeting is the one that may have the transcript. -/
structure Single (tr : Transcript) (ours : List JobId) (e : EngineState) (ps : Progresses) : Prop where
  known : ∀ j ∈ ours, j ∈ e.issued
  one : ∀ i j, CapturesAt ours e i → CapturesAt ours e j → i = j
  has : ∀ i, CapturesAt ours e i → ∀ m, HeldAt tr e m → (ps i).phase.Has m
  atMostOne : AtMostOne tr e

theorem HeldAt.held {m : MeetingId} (h : HeldAt tr e m) : Held tr e :=
  List.mem_map.mpr ⟨_, Table.mem_of_get h, rfl⟩

theorem single_start : Single tr [] {} fun _ => Phase.opening.going where
  known := by simp
  one := by simp [CapturesAt]
  has := by simp [CapturesAt]
  atMostOne := by simp [AtMostOne, HeldAt]

/-- A task that captures after a step of task `i` did so before. -/
theorem captures_perform (ht : e.tasks[i]? = some t) (hrest : t.rest = .call o k)
    (h : CapturesAt ours (e.perform i t o k c) j) : CapturesAt ours e j := by
  have heach : Each (fun j t' _ => Running.Captures ours t' → CapturesAt ours e j) (e.perform i t o k c)
      (Function.update (fun _ => Phase.opening.going) i Phase.opening.going) :=
    each_perform (fun j t' _ hj hcaptures => ⟨t', hj, hcaptures⟩) ht fun hcaptures =>
      ⟨t, ht, hcaptures.1, by simp [Running.ended, hrest], hcaptures.2.2⟩
  obtain ⟨t', hj, hcaptures⟩ := h
  exact heach j t' hj hcaptures

/-- A task that captures was there before, or has just been started. -/
theorem captures_spawn (h : CapturesAt ours (e.spawn cfg jobId source) j) :
    CapturesAt ours e j ∨ j = e.tasks.length ∧ jobId ∈ ours ∧ captures source = true := by
  have hold : Each (fun j t _ => Running.Captures ours t →
      CapturesAt ours e j ∨ j = e.tasks.length ∧ jobId ∈ ours ∧ captures source = true) e
      fun _ => Phase.opening.going :=
    fun j t hj hcaptures => Or.inl ⟨t, hj, hcaptures⟩
  obtain ⟨t, hj, hcaptures⟩ := h
  exact each_spawn hold (fun hnew => Or.inr ⟨rfl, hnew.1, hnew.2.2⟩) j t hj hcaptures

/-- What leaves the tasks and the transcripts leaves the captures. -/
theorem Single.frame (h : Single tr ours e ps) (htasks : e'.tasks = e.tasks)
    (htranscripts : e'.world.store.transcripts = e.world.store.transcripts) (hissued : e.issued ⊆ e'.issued) :
    Single tr ours e' ps := by
  have hcapturing {i : ℕ} (hi : CapturesAt ours e' i) : CapturesAt ours e i := by
    unfold CapturesAt at hi ⊢
    rwa [← htasks]
  have hheld {m : MeetingId} (hm : HeldAt tr e' m) : HeldAt tr e m := by
    unfold HeldAt at hm ⊢
    rwa [← htranscripts]
  exact ⟨fun j hj => hissued (h.known j hj), fun i j hi hj => h.one i j (hcapturing hi) (hcapturing hj),
    fun i hi m hm => h.has i (hcapturing hi) m (hheld hm), fun m m' hm hm' => h.atMostOne m m' (hheld hm) (hheld hm')⟩

/-- A task that is not of the session, or stores no transcript, is started. -/
theorem Single.spawn (h : Single tr ours e ps) (hnew : jobId ∈ ours → captures source = false) :
    Single tr ours (e.spawn cfg jobId source) (Function.update ps e.tasks.length Phase.opening.going) := by
  have hold {i : ℕ} (hi : CapturesAt ours (e.spawn cfg jobId source) i) : CapturesAt ours e i := by
    rcases captures_spawn hi with hi | ⟨-, hown, hsource⟩
    · exact hi
    · cases hsource.symm.trans (hnew hown)
  refine ⟨h.known, fun i j hi hj => h.one i j (hold hi) (hold hj), fun i hi m hm => ?_, h.atMostOne⟩
  obtain ⟨t, ht, -⟩ := hold hi
  obtain ⟨hlt, -⟩ := List.getElem?_eq_some_iff.mp ht
  rw [Function.update_of_ne hlt.ne]
  exact h.has i (hold hi) m hm

/-- A step of a task. -/
theorem Single.perform (h : Single tr ours e ps) (ht : e.tasks[i]? = some t) (hrest : t.rest = .call o k)
    (hp : permits t.source t.jobId (ps i) o) (hok : stores o = some tr → t.jobId ∈ ours) :
    Single tr ours (e.perform i t o k c)
      (Function.update ps i (next t.source (ps i) o (answer e.world o (c.outcome o)).1)) := by
  have hheld {m : MeetingId} (hm : HeldAt tr (e.perform i t o k c) m) : HeldAt tr e m ∨
      CapturesAt ours e i ∧ (∃ meeting, (ps i).phase = .recorded meeting ∧ meeting.id = m) := by
    rcases held_answer hp hm with hm | ⟨hsaves, hsource, hmeeting⟩
    · exact Or.inl hm
    · exact Or.inr ⟨⟨t, ht, hok hsaves, by simp [Running.ended, hrest], hsource⟩, hmeeting⟩
  have hhas {m : MeetingId} (hi : CapturesAt ours e i) (hm : HeldAt tr (e.perform i t o k c) m) :
      (ps i).phase.Has m := by
    rcases hheld hm with hm | ⟨-, meeting, hph, hid⟩
    · exact h.has i hi m hm
    · rw [hph]
      exact hid
  refine ⟨fun j hj => subset_perform (h.known j hj), fun j j' hj hj' => ?_, fun j hj m hm => ?_,
    fun m m' hm hm' => ?_⟩
  · exact h.one j j' (captures_perform ht hrest hj) (captures_perform ht hrest hj')
  · have hold := captures_perform ht hrest hj
    by_cases hij : j = i
    · subst hij
      rw [Function.update_self]
      exact has_keep hp (hhas hold hm)
    · rw [Function.update_of_ne hij]
      rcases hheld hm with hm | ⟨hi, -⟩
      · exact h.has j hold m hm
      · exact absurd (h.one j i hold hi) hij
  · have hsame (hi : CapturesAt ours e i) {meeting : Meeting} (hph : (ps i).phase = .recorded meeting) : m = m' := by
      have hm := hhas hi hm
      have hm' := hhas hi hm'
      rw [hph] at hm hm'
      exact (show meeting.id = m from hm).symm.trans hm'
    rcases hheld hm with hold | ⟨hi, meeting, hph, -⟩
    · rcases hheld hm' with hold' | ⟨hi, meeting, hph, -⟩
      · exact h.atMostOne m m' hold hold'
      · exact hsame hi hph
    · exact hsame hi hph

/-- **Whatever the engine does of its own** captures the session no second time. -/
theorem single_step (h : Single tr ours e ps)
    (hok : ∀ i c t, a = .step i c → e.tasks[i]? = some t → Running.stores t = some tr → t.jobId ∈ ours)
    (he : Evolves cfg e ps a e' ps') : Single tr ours e' ps' := by
  cases he with
  | task ht hrest hpermits hfresh =>
    refine h.perform ht hrest hpermits fun hsaves => hok _ _ _ rfl ht ?_
    rwa [Running.stores, hrest]
  | process hfresh =>
    rename_i jobId input written
    have haccept : Single tr ours (e.accept jobId .process written) ps :=
      h.frame rfl rfl (List.subset_cons_self _ _)
    exact haccept.spawn fun hown => absurd (h.known _ hown) hfresh
  | reprocess hfresh =>
    rename_i jobId id written
    have haccept : Single tr ours (e.accept jobId .reprocess written) ps :=
      h.frame rfl rfl (List.subset_cons_self _ _)
    exact haccept.spawn fun _ => rfl
  | cancel => exact h.frame rfl rfl (List.Subset.refl _)
  | crash =>
    refine ⟨h.known, fun i j hi => ?_, fun i hi => ?_, h.atMostOne⟩
    all_goals
      obtain ⟨t, ht, -⟩ := hi
      simp [EngineState.crash] at ht
  | interrupted hq => exact h.frame rfl (recoverStatus_frame e _ _).1 (List.Subset.refl _)
  | closed hq => exact h.frame rfl rfl (List.Subset.refl _)
  | resumed hq hid hstored hw =>
    rename_i job id rest c w
    have hframe : Single tr ours { e with world := w, recovering := rest } ps :=
      h.frame rfl (by rw [hw]) (List.Subset.refl _)
    exact hframe.spawn fun _ => rfl

/-- **A request is accepted** while nothing has come of the ones before. -/
theorem single_accept {input : MeetingInput} {written : Bool} (h : Single tr ours e ps)
    (hnone : ¬ Held tr e) (hidle : ∀ t ∈ e.tasks, ¬ Running.Captures ours t)
    (ho : Orderly e ps) (he : Evolves cfg e ps (.process jobId input written) e' ps') :
    Single tr (jobId :: ours) e' ps' := by
  cases he with
  | process hfresh =>
    have hold {i : ℕ} (hi : CapturesAt (jobId :: ours) (e.accept jobId .process written) i) : False := by
      obtain ⟨t, ht, hown, hcaptures⟩ := hi
      rcases List.mem_cons.mp hown with hown | hown
      · exact hfresh (hown ▸ (ho.tasks i t ht).job)
      · exact hidle t (List.mem_of_getElem? ht) ⟨hown, hcaptures⟩
    have hnew {i : ℕ} (hi : CapturesAt (jobId :: ours)
        ((e.accept jobId .process written).spawn cfg jobId (.process input)) i) : i = e.tasks.length := by
      rcases captures_spawn hi with hi | ⟨hlen, -⟩
      · exact (hold hi).elim
      · exact hlen
    refine ⟨fun j hj => ?_, fun i j hi hj => (hnew hi).trans (hnew hj).symm, fun i _ m hm => absurd hm.held hnone,
      h.atMostOne⟩
    rcases List.mem_cons.mp hj with rfl | hj
    · exact List.mem_cons_self
    · exact List.mem_cons_of_mem _ (h.known j hj)

end Engine

/-! ### The invariant -/

/-- What the engine owes, that what is submitted is the transcript of the session, and that at most one task
captures it. -/
structure Inv (tr : Transcript) (s : Retries) (ps : Progresses) : Prop where
  served : Served tr s.link.engine ps s.link.pipe s.link.own
  submits : Submits tr s.link.client
  flight : ∀ t ∈ s.flight, t = tr
  single : Single tr s.ours s.link.engine ps

section Run
variable {cfg : Config} {fallback : Fallback} {tr : Transcript} {s s' : Retries} {l : Link} {ps : Progresses}
  {a : Action} {b : Connection.Action}

theorem inv_start (ed : Editor) (session : MeetingSession) :
    Inv (toTranscript session.segments) (start ed session) fun _ => Phase.opening.going where
  served := served_start
  submits := submits_start ed session
  flight := by simp [start]
  single := single_start

/-- What is on its way after an action is the transcript of the session. -/
theorem flight_goOn (h : Inv tr s ps) : ∀ t ∈ (s.goOn b l).flight, t = tr := by
  intro t ht
  unfold Retries.goOn at ht
  split at ht
  · exact h.flight t ht
  · rcases List.mem_append.mp ht with ht | ht
    · exact h.flight t ht
    · unfold pending at ht
      split at ht
      · next current t' heard hcall hown =>
        obtain rfl := List.mem_singleton.mp ht
        exact h.submits.call _ _ _ hcall
      · cases ht
  · cases ht
  · exact h.flight t ht

@[simp] theorem link_goOn : (s.goOn b l).link = l := by
  unfold Retries.goOn
  split <;> rfl

/-- Only a request that is accepted starts a job of the session. -/
theorem ours_goOn (hb : ∀ jobId written, b ≠ .submit jobId written) : (s.goOn b l).ours = s.ours := by
  unfold Retries.goOn
  split
  · exact absurd rfl (hb _ _)
  · rfl
  · rfl
  · rfl

/-- An action between the client and the engine. -/
theorem inv_link (h : Inv tr s ps) (hok : Once tr s (.link b)) (hs : Moves cfg fallback s.link b l) :
    ∃ ps', Inv tr (s.goOn b l) ps' := by
  have hsubmits := submits_step h.submits hs
  have hflight : ∀ t ∈ (s.goOn b l).flight, t = tr := flight_goOn h
  have hquiet (hserved : Served tr l.engine ps l.pipe l.own) (hengine : l.engine = s.link.engine)
      (hb : ∀ jobId written, b ≠ .submit jobId written) : ∃ ps', Inv tr (s.goOn b l) ps' := by
    refine ⟨ps, by rwa [link_goOn], by rwa [link_goOn], hflight, ?_⟩
    rw [link_goOn, ours_goOn hb, hengine]
    exact h.single
  cases hs with
  | client ha hcalls hc => exact hquiet h.served rfl (by rintro _ _ ⟨⟩)
  | call hcall => exact hquiet h.served.free rfl (by rintro _ _ ⟨⟩)
  | engine he =>
    rename_i a e
    obtain ⟨ps', hserved, hevolves⟩ := served_step h.served he
    have hsingle : Single tr s.ours e ps' := by
      refine single_step h.single (fun i c t ha ht hsaves => ?_) hevolves
      subst ha
      exact hok t ht hsaves
    refine ⟨ps', by rwa [link_goOn], by rwa [link_goOn], hflight, ?_⟩
    rw [link_goOn, ours_goOn (by rintro _ _ ⟨⟩)]
    exact hsingle
  | submit hcall hown he =>
    obtain rfl := h.submits.call _ _ _ hcall
    obtain ⟨ps', hserved, hevolves⟩ := served_submit h.served.free he
    exact ⟨ps', hserved, hsubmits, hflight, single_accept h.single hok.1 hok.2 h.served.orderly hevolves⟩
  | accepted hown hcall => exact hquiet h.served rfl (by rintro _ _ ⟨⟩)
  | deliver hpipe =>
    exact hquiet (h.served.subset (hpipe ▸ List.subset_cons_self _ _)) rfl (by rintro _ _ ⟨⟩)
  | lose hpipe =>
    exact hquiet (h.served.subset (hpipe ▸ List.subset_cons_self _ _)) rfl (by rintro _ _ ⟨⟩)
  | fetched hcall hc => exact hquiet h.served rfl (by rintro _ _ ⟨⟩)

/-- **The step lemma.** -/
theorem inv_step (h : Inv tr s ps) (hok : Once tr s a) (hs : step cfg fallback s a = some s') :
    ∃ ps', Inv tr s' ps' := by
  cases a with
  | link b =>
    obtain ⟨l, hl, rfl⟩ := Option.map_eq_some_iff.mp hs
    exact inv_link h hok (moves_of_step hl)
  | late i jobId written =>
    simp only [step] at hs
    cases ht : s.flight[i]? with
    | none => simp [ht] at hs
    | some t =>
      simp only [ht] at hs
      obtain ⟨e, he, rfl⟩ := Option.map_eq_some_iff.mp hs
      obtain rfl := h.flight t (List.mem_of_getElem? ht)
      obtain ⟨ps', hserved, hevolves⟩ := served_step h.served he
      exact ⟨ps', hserved, h.submits, fun t' ht' => h.flight t' (List.mem_of_mem_eraseIdx ht'),
        single_accept h.single hok.1 hok.2 h.served.orderly hevolves⟩

end Run

/-- **A session is captured at most once** while its requests are accepted one at a time. -/
theorem captured_once (cfg : Config) (fallback : Fallback) (ed : Editor) (session : MeetingSession) :
    CapturedOnce cfg fallback ed session (Once (toTranscript session.segments)) := by
  intro s hs
  obtain ⟨ps, h⟩ := hs.inv (I := fun s => ∃ ps, Inv (toTranscript session.segments) s ps) ⟨_, inv_start ed session⟩
    fun s a s' ⟨ps, h⟩ hok hstep => inv_step h hok hstep
  exact h.single.atMostOne

/-- The request fails; the user tries again, and the engine accepts that request. -/
def again : List Connection.Action := [.client (.requestFailed .timeout), .client (.summarise true), .submit ['k'] true]

/-- Task `i` runs to its capture, as meeting `m`. -/
def captured (i : ℕ) (m : MeetingId) : List Connection.Action := List.replicate 7 (.engine (.step i (quiet m)))

/-- A session whose first request never reaches the engine is captured. -/
def delayed : List Action := (called ++ again ++ captured 0 ['m']).map .link

example : (run (step plain fun _ t => t) (start (Editor.new SummaryNote.twoNotes) spoken) delayed).map
      (fun s => s.link.engine.world.store.transcripts) = some [(['m'], toTranscript spoken.segments)] ∧
    Along (step plain fun _ t => t) (Once (toTranscript spoken.segments))
      (start (Editor.new SummaryNote.twoNotes) spoken) delayed := by
  decide +kernel

/-- The engine accepts both requests. -/
def doubled : List Action :=
  (called ++ .submit ['j'] true :: again ++ captured 0 ['m'] ++ captured 1 ['n']).map .link

/-- **A session whose first request is answered late is captured twice.** -/
theorem captured_twice : ¬ ∀ (cfg : Config) (fallback : Fallback) (ed : Editor) (session : MeetingSession),
    CapturedOnce cfg fallback ed session fun _ _ => True := by
  intro h
  have hobs : (run (step plain fun _ t => t) (start (Editor.new SummaryNote.twoNotes) spoken) doubled).map
      (fun s => (Table.get ['m'] s.link.engine.world.store.transcripts,
        Table.get ['n'] s.link.engine.world.store.transcripts)) =
          some (some (toTranscript spoken.segments), some (toTranscript spoken.segments)) := by
    decide +kernel
  obtain ⟨s, hrun, hs⟩ := Option.map_eq_some_iff.mp hobs
  obtain ⟨hm, hn⟩ := Prod.mk.inj hs
  have hreach : Reach (step plain fun _ t => t) (fun _ _ => True) (start (Editor.new SummaryNote.twoNotes) spoken) s :=
    Reach.of_run (along_of_forall (fun _ _ _ => trivial) _) hrun
  exact absurd (h plain _ _ spoken s hreach _ _ hm hn) (by decide)

end Notely.Summary.Duplicates
