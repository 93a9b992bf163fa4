import Notely.Engine.DeferredRuns

/-! # The events of a run

What a run puts on the event stream, whatever fails and whenever it is cancelled: a part of the word of
its input, from the start of the word on, and then one terminal event.

* `Emits`: what a computation adds to the stream, the whole of a word or, if it fails, a prefix.
* `run_emits`, `rerun_emits`: the words of the two kinds of run.
* `event_grammar`: the events of `process` and of `reprocess`. -/

namespace Notely.Engine.EventTraces

open Notely.Lib Notely.Lib.Programs Notely.Engine.Domain Notely.Engine.Jobs Notely.Engine.Preprocess
open Notely.Engine.Orchestrator Notely.Engine.Analysis Notely.Engine.Answers Notely.Engine.DeferredRuns

/-! ### The words -/

/-- The word of the media tools and the recognizer. -/
def audioWord (jobId : JobId) : List Event :=
  [.mediaProcessingStarted jobId, .mediaProcessingCompleted jobId, .transcriptionStarted jobId,
    .transcriptionCompleted jobId]

/-- The progress of the extraction from chunk `i` on, with `k` chunks left of `n`. -/
def progressWord (jobId : JobId) (n i k : ℕ) : List Event :=
  (List.range' (i + 1) k).map fun c => .extractionProgress jobId c n

/-- The word of the analysis of `n` chunks. -/
def analysisWord (jobId : JobId) (n : ℕ) : List Event :=
  (if n = 0 then [] else
    .extractionStarted jobId n :: (progressWord jobId n 0 n ++
      [.extractionCompleted jobId, .synthesisStarted jobId, .synthesisCompleted jobId])) ++
  [.validationStarted jobId, .validationCompleted jobId]

/-- The word of the enrichment. -/
def enrichWord (jobId : JobId) (n : ℕ) : List Event :=
  .chunkingStarted jobId :: .chunkingCompleted jobId n ::
    (analysisWord jobId n ++ [.renderingStarted jobId, .renderingCompleted jobId])

/-- **The full word** of a run for a meeting, from audio or not, whose transcript has `n` chunks. -/
def word (jobId : JobId) (id : MeetingId) (audio : Bool) (n : ℕ) : List Event :=
  .processingStarted jobId id :: ((if audio then audioWord jobId else []) ++ enrichWord jobId n)

/-- The events that end a job. -/
def IsTerminal : Event → Prop
  | .jobCompleted _ _ | .jobFailed _ _ => True
  | _ => False

/-- The terminal event of an outcome. -/
def terminal (jobId : JobId) : Except PipelineError MeetingId → Event
  | .ok id => .jobCompleted jobId id
  | .error .cancelled => .jobFailed jobId "cancelled".toList
  | .error err => .jobFailed jobId err.toText

theorem not_terminal_of_mem_word {jobId : JobId} {id : MeetingId} {audio : Bool} {n : ℕ} {e : Event}
    (h : e ∈ word jobId id audio n) : ¬ IsTerminal e := by
  intro ht
  cases e with
  | jobCompleted | jobFailed =>
    cases audio <;> by_cases hn : n = 0 <;>
      simp [word, audioWord, enrichWord, analysisWord, progressWord, hn] at h
  | _ => exact ht

/-! ### What a computation emits -/

/-- What an operation puts on the stream. -/
def sent {α : Type} : Op α → List Event
  | .send e => [e]
  | _ => []

section Emits
variable {α β ε : Type} {env : Env} {x : Pipeline α} {f : α → Pipeline β} {P : α → Prop} {Q : β → Prop}
  {u v w : List Event}

/-- The computation ends with a value meeting `P` and `w` added to the events, or fails after a prefix. -/
def Emits (env : Env) (x : Pipeline α) (w : List Event) (P : α → Prop := fun _ => True) : Prop :=
  ∀ s, Ends env.handler x s (fun a s' => P a ∧ s'.world.events = s.world.events ++ w)
    fun _ s' => ∃ p, p <+: w ∧ s'.world.events = s.world.events ++ p

theorem emits_pure {a : α} (ha : P a) : Emits env (pure a) [] P :=
  fun _ => ends_pure ⟨ha, (List.append_nil _).symm⟩

theorem emits_throw {e : PipelineError} : Emits env (throw e) w P :=
  fun _ => ends_throw ⟨[], List.nil_prefix, (List.append_nil _).symm⟩

/-- **The rule of sequence**: the words one after the other. -/
theorem emits_bind (hx : Emits env x u P) (hf : ∀ a, P a → Emits env (f a) v Q) :
    Emits env (x >>= f) (u ++ v) Q := by
  intro s
  refine ends_bind ((hx s).mono (fun a s1 ⟨ha, h1⟩ => ?_) fun e s1 ⟨p, hp, h1⟩ => ?_)
  · refine (hf a ha s1).mono (fun b s2 ⟨hb, h2⟩ => ⟨hb, ?_⟩) fun e s2 ⟨p, hp, h2⟩ => ⟨u ++ p, ?_, ?_⟩
    · rw [h2, h1, List.append_assoc]
    · exact (List.prefix_append_right_inj u).mpr hp
    · rw [h2, h1, List.append_assoc]
  · exact ⟨p, hp.trans (List.prefix_append u v), h1⟩

theorem events_handler (o : Op α) (s : Session) :
    (env.handler o s).2.world.events = s.world.events ++ sent o := by
  cases o with
  | send e => rfl
  | isCancelled jobId =>
    simp only [Env.handler, Env.before, answer, sent, List.append_nil]
    split_ifs <;> rfl
  | saveMeeting _ | saveTranscript _ _ | saveMeetingIr _ _ | saveMom _ _ | saveProcessingStatus _ _ =>
    simp [Env.handler, Env.before, answer, sent]
  | getMeeting _ | getTranscript _ => simp [Env.handler, Env.before, answer, sent]
  | _ => exact (List.append_nil _).symm

theorem emits_send {e : Event} {f : Unit → Pipeline β} (hf : Emits env (f ()) w Q) :
    Emits env (op (.send e) >>= f) (e :: w) Q := by
  have hop : Emits env (op (.send e)) [e] := fun s => ends_lift ⟨trivial, events_handler (.send e) s⟩
  exact emits_bind hop fun _ _ => hf

/-- An operation that is no event, then the rest with its reply. -/
theorem emits_op {o : Op α} (ho : sent o = []) (hf : ∀ s, Emits env (f (env.handler o s).1) w Q) :
    Emits env (op o >>= f) w Q := by
  intro s
  have hev : (env.handler o s).2.world.events = s.world.events := by
    rw [events_handler, ho, List.append_nil]
  refine ends_op ((hf s (env.handler o s).2).mono (fun b s' ⟨hb, h⟩ => ⟨hb, ?_⟩) fun e s' ⟨p, hp, h⟩ => ⟨p, hp, ?_⟩)
  · rw [h, hev]
  · rw [h, hev]

/-- An outcome unwrapped, then the rest. -/
theorem emits_orFail {r : Except ε α} {wrap : ε → PipelineError} (hf : ∀ a, r = .ok a → Emits env (f a) w Q) :
    Emits env (orFail wrap r >>= f) w Q := by
  cases r with
  | ok a => exact hf a rfl
  | error e => exact fun s => ends_throw ⟨[], List.nil_prefix, (List.append_nil _).symm⟩

/-- An outcome unwrapped. -/
theorem emits_outcome {r : Except ε α} {wrap : ε → PipelineError} :
    Emits env (orFail wrap r) [] fun a => r = .ok a := by
  cases r with
  | ok a => exact emits_pure rfl
  | error e => exact emits_throw

/-- A silent computation, then the rest. -/
theorem emits_silent (hx : Emits env x [] P) (hf : ∀ a, P a → Emits env (f a) w Q) : Emits env (x >>= f) w Q :=
  emits_bind hx hf

/-- A computation, then a silent rest. -/
theorem emits_last (hx : Emits env x w P) (hf : ∀ a, P a → Emits env (f a) [] Q) : Emits env (x >>= f) w Q := by
  have h := emits_bind hx hf
  rwa [List.append_nil] at h

end Emits

/-! ### The stages -/

section Stages
variable {cfg : Config} {env : Env} {jobId : JobId}

theorem checkCancel_emits : Emits env (checkCancel jobId) [] := by
  unfold checkCancel
  refine emits_op rfl fun s => ?_
  split_ifs
  · exact emits_throw
  · exact emits_pure trivial

theorem stage_emits {st : JobStage} : Emits env (stage jobId st) [] :=
  fun s => ends_lift ⟨trivial, events_handler (.updateJob jobId _) s⟩

theorem persistStatus_emits {id : MeetingId} {status : ProcessingStatus} : Emits env (persistStatus id status) [] :=
  emits_op rfl fun _ => emits_pure trivial

theorem validateStage_emits {ir : MeetingIr} :
    Emits env (validateStage jobId ir) [.validationStarted jobId, .validationCompleted jobId] := by
  refine emits_silent stage_emits fun _ _ => emits_send (emits_orFail fun _ _ => ?_)
  exact fun s => ends_lift ⟨trivial, events_handler (.send (.validationCompleted jobId)) s⟩

/-- The extraction tells its progress after every chunk; by induction on the chunks left. -/
theorem extractFrom_emits {context : AnalysisContext} {total : ℕ} (chunks : List Chunk) (i : ℕ) :
    Emits env (extractFrom jobId context total i chunks) (progressWord jobId total i chunks.length) := by
  induction chunks generalizing i with
  | nil => exact emits_pure trivial
  | cons chunk chunks ih =>
    have hword : progressWord jobId total i (chunks.length + 1) =
        .extractionProgress jobId (i + 1) total :: progressWord jobId total (i + 1) chunks.length := by
      simp [progressWord, List.range'_succ]
    rw [List.length_cons, hword]
    refine emits_silent checkCancel_emits fun _ _ => emits_op rfl fun _ => emits_orFail fun found _ => ?_
    exact emits_send (emits_last (ih (i + 1)) fun rest _ => emits_pure trivial)

theorem analyze_emits {prepared : PreparedTranscript} {context : AnalysisContext} :
    Emits env (analyze jobId prepared context) (analysisWord jobId prepared.chunks.length) := by
  unfold analyze analysisWord
  dsimp only
  split_ifs with hn
  · exact emits_last validateStage_emits fun _ _ => emits_pure trivial
  · rw [List.cons_append, List.append_assoc]
    refine emits_silent stage_emits fun _ _ => emits_send ?_
    refine emits_bind (extractFrom_emits prepared.chunks 0) fun findings _ => emits_send ?_
    refine emits_silent checkCancel_emits fun _ _ => emits_silent stage_emits fun _ _ => emits_send ?_
    refine emits_op rfl fun _ => emits_orFail fun ir _ => emits_send ?_
    exact emits_silent checkCancel_emits fun _ _ => emits_last validateStage_emits fun _ _ => emits_pure trivial

theorem enrich_emits {meeting : Meeting} {transcript : Transcript} {context : AnalysisContext} :
    Emits env (enrich cfg jobId meeting transcript context)
      (enrichWord jobId (prepare transcript cfg.chunking).chunks.length) := by
  refine emits_silent stage_emits fun _ _ => emits_send (emits_send ?_)
  refine emits_silent checkCancel_emits fun _ _ => emits_bind analyze_emits fun ir _ => ?_
  refine emits_op rfl fun _ => emits_orFail fun _ _ => emits_silent stage_emits fun _ _ => ?_
  refine emits_send (emits_send (emits_silent stage_emits fun _ _ => ?_))
  refine emits_op rfl fun _ => emits_orFail fun _ _ => emits_op rfl fun _ => ?_
  exact fun s => (emits_outcome s).mono (fun _ _ h => ⟨trivial, h.2⟩) fun _ _ h => h

/-- The transcript that the recognizer gives. -/
theorem mediaAndAsr_emits {path : Strings.Text} :
    Emits env (mediaAndAsr cfg jobId path) (audioWord jobId) fun t => env.asr = .ok t := by
  refine emits_silent stage_emits fun _ _ => emits_send (emits_op rfl fun _ => emits_orFail fun prepared _ => ?_)
  refine emits_send (emits_silent checkCancel_emits fun _ _ => emits_silent stage_emits fun _ _ => ?_)
  refine emits_send (emits_op rfl fun _ => emits_orFail fun t ht => ?_)
  exact emits_send (emits_pure ht)

end Stages

/-! ### The runs -/

/-- The input is a recording. -/
def isAudio : MeetingInput → Bool
  | .transcript _ _ => false
  | .audio _ _ => true

/-- The transcript of the input, if there is one. -/
def transcriptOf (env : Env) : MeetingInput → Option Transcript
  | .transcript _ t => some t
  | .audio _ _ => env.asr.toOption

/-- The number of chunks of a transcript. -/
def chunkCount (cfg : Config) (t : Option Transcript) : ℕ :=
  (t.map fun t => (prepare t cfg.chunking).chunks.length).getD 0

section Runs
variable (cfg : Config) (env : Env) (jobId : JobId)

theorem rawTranscriptOf_emits (input : MeetingInput) :
    Emits env (rawTranscriptOf cfg jobId input) (if isAudio input then audioWord jobId else [])
      fun t => transcriptOf env input = some t := by
  cases input with
  | transcript title t => exact emits_pure rfl
  | audio title path =>
    refine fun s => (mediaAndAsr_emits s).mono (fun t s' ⟨ht, h⟩ => ⟨?_, h⟩) fun _ _ h => h
    simp [transcriptOf, ht, Except.toOption]

/-- **The word of a first run.** -/
theorem run_emits (input : MeetingInput) :
    Emits env (run cfg jobId input)
      (word jobId env.drawn.1 (isAudio input) (chunkCount cfg (transcriptOf env input))) := by
  refine emits_op rfl fun _ => emits_op rfl fun _ => emits_op rfl fun _ => emits_orFail fun _ _ => ?_
  refine emits_op rfl fun _ => emits_send (emits_silent checkCancel_emits fun _ _ => ?_)
  refine emits_bind (rawTranscriptOf_emits cfg env jobId input) fun t ht => ?_
  have hn : chunkCount cfg (transcriptOf env input) = (prepare t cfg.chunking).chunks.length := by
    simp [chunkCount, ht]
  rw [hn]
  refine emits_op rfl fun _ => emits_orFail fun _ _ => emits_silent persistStatus_emits fun _ _ => ?_
  exact emits_silent checkCancel_emits fun _ _ => emits_last enrich_emits fun _ _ => emits_pure trivial

/-- **The word of a retry**, which begins once the transcript is loaded. -/
theorem rerun_emits (m : MeetingId) (s : Session) :
    Ends env.handler (rerun cfg jobId m) s
      (fun _ s' => s'.world.events = s.world.events ++
        word jobId m false (chunkCount cfg (Table.get m s.world.store.transcripts)))
      fun _ s' => ∃ p, p <+: word jobId m false (chunkCount cfg (Table.get m s.world.store.transcripts)) ∧
        s'.world.events = s.world.events ++ p := by
  unfold rerun
  refine ends_op ?_
  generalize hs1 : (env.handler (.updateJob jobId _) s).2 = s1
  have hev1 : s1.world.events = s.world.events := by
    rw [← hs1]
    rfl
  have htr1 : s1.world.store.transcripts = s.world.store.transcripts := by
    rw [← hs1]
    rfl
  refine ends_try (fun meeting hm => ?_) fun e _ => ⟨[], List.nil_prefix, ?_⟩
  · cases meeting with
    | none => exact ends_throw ⟨[], List.nil_prefix, by rw [world_getMeeting, hev1, List.append_nil]⟩
    | some meeting =>
      refine ends_try (fun transcript ht => ?_) fun e _ => ⟨[], List.nil_prefix, ?_⟩
      · cases transcript with
        | none =>
          refine ends_throw ⟨[], List.nil_prefix, ?_⟩
          rw [world_getTranscript, world_getMeeting, hev1, List.append_nil]
        | some transcript =>
          have hget : Table.get m (env.handler (.getMeeting m) s1).2.world.store.transcripts = some transcript :=
            (read_eq_ok.mp ht).2
          rw [world_getMeeting, htr1] at hget
          have hrest : Emits env (do
              persistStatus m .processing
              op (.send (.processingStarted jobId m))
              checkCancel jobId
              enrich cfg jobId meeting transcript { title := some meeting.title }
              return meeting.id)
              (word jobId m false (chunkCount cfg (Table.get m s.world.store.transcripts))) := by
            rw [hget]
            refine emits_silent persistStatus_emits fun _ _ => emits_send (emits_silent checkCancel_emits fun _ _ => ?_)
            exact emits_last enrich_emits fun _ _ => emits_pure trivial
          refine (hrest _).mono (fun a s' ⟨_, h⟩ => ?_) fun e s' ⟨p, hp, h⟩ => ⟨p, hp, ?_⟩
          · rw [h, world_getTranscript, world_getMeeting, hev1]
          · rw [h, world_getTranscript, world_getMeeting, hev1]
      · rw [world_getTranscript, world_getMeeting, hev1, List.append_nil]
  · rw [world_getMeeting, hev1, List.append_nil]

theorem reportFailure_emits (mid : Option MeetingId) (f : Job → Job) (status : ProcessingStatus)
    (message : Strings.Text) (s : Session) :
    ((reportFailure jobId mid f status message).run env.handler s).2.world.events =
      s.world.events ++ [.jobFailed jobId message] := by
  cases mid <;> simp [reportFailure, run_bind, events_handler, sent]

/-- **The outcome is told by one event.** -/
theorem finalize_emits (result : Except PipelineError MeetingId) (s : Session) :
    ((finalize jobId result).run env.handler s).1 = result ∧
      ((finalize jobId result).run env.handler s).2.world.events = s.world.events ++ [terminal jobId result] := by
  unfold finalize
  rw [run_bind]
  generalize hs1 : ((perform (.getJob jobId)).run env.handler s).2 = s1
  have hev : s1.world.events = s.world.events := by
    rw [← hs1]
    rfl
  rw [← hev]
  cases result with
  | ok id => simp [reportSuccess, run_bind, events_handler, sent, terminal]
  | error err => cases err <;> simp [run_bind, reportFailure_emits, terminal]

/-- The events of a run that ends with `result`: a prefix of the word, the whole of it if the run is `Ok`, and
then the one terminal event, `JobCompleted` exactly if the run is `Ok`. -/
def Grammatical (jobId : JobId) (w : List Event) (result : Except PipelineError MeetingId)
    (events : List Event) : Prop :=
  ∃ p, p <+: w ∧ events = p ++ [terminal jobId result] ∧ (∀ e ∈ p, ¬ IsTerminal e) ∧
    IsTerminal (terminal jobId result) ∧
    ((∃ id, terminal jobId result = .jobCompleted jobId id) ↔ result.isOk) ∧ (result.isOk → p = w)

theorem terminal_cases (result : Except PipelineError MeetingId) : IsTerminal (terminal jobId result) ∧
    ((∃ id, terminal jobId result = .jobCompleted jobId id) ↔ result.isOk) := by
  cases result with
  | ok id => simp [terminal, IsTerminal, Except.isOk, Except.toBool]
  | error err => cases err <;> simp [terminal, IsTerminal, Except.isOk, Except.toBool]

/-- A run that emits a word, and then its outcome. -/
theorem finalized_grammatical {x : Pipeline MeetingId} {s : Session} {id : MeetingId} {audio : Bool} {n : ℕ}
    (hx : Ends env.handler x s (fun _ s' => s'.world.events = s.world.events ++ word jobId id audio n)
      fun _ s' => ∃ p, p <+: word jobId id audio n ∧ s'.world.events = s.world.events ++ p) :
    ∃ events, ((x.run >>= finalize jobId).run env.handler s).2.world.events = s.world.events ++ events ∧
      Grammatical jobId (word jobId id audio n) ((x.run >>= finalize jobId).run env.handler s).1 events := by
  rw [run_bind]
  unfold Ends exec at hx
  rcases he : x.run.run env.handler s with ⟨result, s1⟩
  obtain ⟨hres, hev⟩ := finalize_emits env jobId result s1
  obtain ⟨hterm, hiff⟩ := terminal_cases jobId result
  have hpre : ∃ p, p <+: word jobId id audio n ∧ s1.world.events = s.world.events ++ p ∧
      (result.isOk → p = word jobId id audio n) := by
    rw [he] at hx
    cases result with
    | ok a => exact ⟨_, List.prefix_refl _, hx, fun _ => rfl⟩
    | error e =>
      obtain ⟨p, hp, h1⟩ := hx
      exact ⟨p, hp, h1, by simp [Except.isOk, Except.toBool]⟩
  obtain ⟨p, hp, h1, hok⟩ := hpre
  refine ⟨p ++ [terminal jobId result], ?_, ?_⟩
  · rw [hev, h1, List.append_assoc]
  · rw [hres]
    exact ⟨p, hp, rfl, fun e he => not_terminal_of_mem_word (hp.subset he), hterm, hiff, hok⟩

end Runs

/-- **The grammar of the event stream.** Whatever fails and whenever the run is cancelled, what `process` and
`reprocess` add to the stream is a prefix of the word of the run, and then one terminal event. -/
theorem event_grammar (cfg : Config) (env : Env) (jobId : JobId) (s : Session) :
    (∀ input, ∃ events,
      ((process cfg jobId input).run env.handler s).2.world.events = s.world.events ++ events ∧
      Grammatical jobId
        (word jobId env.drawn.1 (isAudio input) (chunkCount cfg (transcriptOf env input)))
        ((process cfg jobId input).run env.handler s).1 events) ∧
    ∀ m, ∃ events,
      ((reprocess cfg jobId m).run env.handler s).2.world.events = s.world.events ++ events ∧
      Grammatical jobId
        (word jobId m false (chunkCount cfg (Table.get m s.world.store.transcripts)))
        ((reprocess cfg jobId m).run env.handler s).1 events := by
  refine ⟨fun input => ?_, fun m => ?_⟩
  · refine finalized_grammatical env jobId ((run_emits cfg env jobId input s).mono ?_ fun _ _ h => h)
    exact fun _ _ h => h.2
  · exact finalized_grammatical env jobId (rerun_emits cfg env jobId m s)

end Notely.Engine.EventTraces
