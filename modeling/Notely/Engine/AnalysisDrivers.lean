import Notely.Engine.Answers

/-! # The two drivers of the analysis

`ai::analyze` of `ai/mod.rs` drives the two passes by itself; `analyze` of the orchestrator drives the same
passes among the operations of a run, which change the job, send events and look at the cancel flag.

* `Yields`: what a computation of the orchestrator ends with, whatever else is decided around it.
* `drivers_agree`: both drivers end alike. -/

namespace Notely.Engine.AnalysisDrivers

open Notely.Lib.Programs Notely.Engine.Domain Notely.Engine.Jobs Notely.Engine.Preprocess
open Notely.Engine.Orchestrator Notely.Engine.Analysis Notely.Engine.Answers

/-! ### The driver of `ai/mod.rs` -/

/-- An `AiAnalyzer` whose calls answer the same whenever they are made. -/
structure Analyzer where
  extractChunk : Chunk → AnalysisContext → Except AiError ChunkFindings
  synthesize : List ChunkFindings → Transcript → AnalysisContext → Except AiError MeetingIr

namespace Analyzer

/-- The loop of `analyze` over the chunks left. -/
def extractAll (ai : Analyzer) (context : AnalysisContext) : List Chunk → Except AiError (List ChunkFindings)
  | [] => .ok []
  | chunk :: chunks => do
    let found ← ai.extractChunk chunk context
    let rest ← ai.extractAll context chunks
    return found :: rest

/-- `ai::analyze`. -/
def analyze (ai : Analyzer) (prepared : PreparedTranscript) (context : AnalysisContext) : Except AiError MeetingIr :=
  if prepared.chunks.isEmpty then
    .ok { summary := "No transcript content was available to analyze.".toList }
  else do
    let findings ← ai.extractAll context prepared.chunks
    let ir ← ai.synthesize findings prepared.normalized context
    (validate ir).mapError fun errs => .validation ("; ".toList.intercalate errs)
    return ir

end Analyzer

/-! ### The driver of the orchestrator -/

/-- What is decided elsewhere for the operations of a run, by their number. -/
abbrev Decided := ℕ → {α : Type} → (o : Op α) → Outcome o

/-- The analyzer answers for the analysis, the rest is decided elsewhere. -/
def Analyzer.outcome (ai : Analyzer) (decided : Decided) (n : ℕ) {α : Type} : (o : Op α) → Outcome o
  | .extractChunk chunk context => ai.extractChunk chunk context
  | .synthesize findings transcript context => ai.synthesize findings transcript context
  | o => decided n o

/-- The surroundings of a run with this analyzer, and the number of operations so far. -/
def Analyzer.handler (ai : Analyzer) (decided : Decided) : Handler Op (World × ℕ) := fun o s =>
  let a := answer s.1 o (ai.outcome decided s.2 o)
  (a.1, a.2, s.2 + 1)

/-- The computation ends with `r` wherever it starts with the flag down, and leaves the flag down. -/
def Yields (ai : Analyzer) (decided : Decided) (jobId : JobId) {α : Type} (x : Pipeline α)
    (r : Except PipelineError α) : Prop :=
  ∀ s, s.1.jobs.isCancelled jobId = false →
    (exec (ai.handler decided) x s).1 = r ∧ (exec (ai.handler decided) x s).2.1.jobs.isCancelled jobId = false

section Yields
variable {ai : Analyzer} {decided : Decided} {jobId : JobId} {α β ε : Type} {x : Pipeline α} {f : α → Pipeline β}
  {r : Except PipelineError α} {g : α → Except PipelineError β}

theorem yields_pure {a : α} : Yields ai decided jobId (pure a) (.ok a) := fun _ h => ⟨rfl, h⟩

theorem yields_throw {e : PipelineError} : Yields ai decided jobId (throw e : Pipeline α) (.error e) :=
  fun _ h => ⟨rfl, h⟩

/-- **The rule of sequence.** -/
theorem yields_bind (hx : Yields ai decided jobId x r) (hf : ∀ a, Yields ai decided jobId (f a) (g a)) :
    Yields ai decided jobId (x >>= f) (r >>= g) := by
  intro s hs
  obtain ⟨hr, hs'⟩ := hx s hs
  rw [exec_bind]
  rcases he : exec (ai.handler decided) x s with ⟨e | a, s'⟩
  · rw [he] at hr hs'
    rw [← hr]
    exact ⟨rfl, hs'⟩
  · rw [he] at hr hs'
    rw [← hr]
    exact hf a s' hs'

/-- An operation whose reply is always the same, then the rest. -/
theorem yields_op {o : Op α} {a : α} {r : Except PipelineError β}
    (ha : ∀ s, s.1.jobs.isCancelled jobId = false → (ai.handler decided o s).1 = a)
    (hf : Yields ai decided jobId (f a) r) : Yields ai decided jobId (op o >>= f) r := by
  have ho : Yields ai decided jobId (op o) (.ok a) := fun s hs =>
    ⟨congrArg Except.ok (ha s hs), isCancelled_answer.trans hs⟩
  intro s hs
  obtain ⟨hr, hs'⟩ := ho s hs
  rw [exec_bind]
  rcases he : exec (ai.handler decided) (op o) s with ⟨e | b, s'⟩
  · rw [he] at hr
    simp at hr
  · rw [he] at hr hs'
    obtain rfl := Except.ok.inj hr
    exact hf s' hs'

/-- An operation without a reply, then the rest. -/
theorem yields_unit {o : Op Unit} {f : Unit → Pipeline β} {r : Except PipelineError β}
    (hf : Yields ai decided jobId (f ()) r) : Yields ai decided jobId (op o >>= f) r :=
  yields_op (fun _ _ => rfl) hf

theorem yields_orFail {a : Except ε α} {wrap : ε → PipelineError} :
    Yields ai decided jobId (orFail wrap a) (a.mapError wrap) := by
  cases a with
  | ok a => exact yields_pure
  | error e => exact yields_throw

/-- The flag is down at every check. -/
theorem yields_checkCancel {f : Unit → Pipeline β} {r : Except PipelineError β}
    (hf : Yields ai decided jobId (f ()) r) : Yields ai decided jobId (checkCancel jobId >>= f) r := by
  have hcheck : Yields ai decided jobId (checkCancel jobId) (.ok ()) :=
    yields_op (fun s hs => hs) yields_pure
  exact yields_bind hcheck (g := fun _ => r) fun _ => hf

end Yields

/-! ### Both drivers -/

section Drivers
variable {ai : Analyzer} {decided : Decided} {jobId : JobId} {prepared : PreparedTranscript} {context : AnalysisContext}

/-- An error of the analysis, as the pipeline passes it on. -/
abbrev passed {α : Type} (r : Except AiError α) : Except PipelineError α := r.mapError .ai

theorem passed_bind {α β : Type} {r : Except AiError α} {g : α → Except AiError β} :
    passed (r >>= g) = passed r >>= fun a => passed (g a) := by
  cases r <;> rfl

theorem yields_validateStage {ir : MeetingIr} : Yields ai decided jobId (validateStage jobId ir)
    (passed ((validate ir).mapError fun errs => .validation ("; ".toList.intercalate errs))) := by
  refine yields_unit (yields_unit ?_)
  cases validate ir with
  | ok u => exact yields_bind yields_pure fun _ => yields_unit yields_pure
  | error errs => exact yields_bind (g := fun _ => .ok ()) yields_throw fun _ => yields_unit yields_pure

/-- The loops agree; by induction on the chunks left. -/
theorem yields_extractFrom (total i : ℕ) (chunks : List Chunk) :
    Yields ai decided jobId (extractFrom jobId context total i chunks) (passed (ai.extractAll context chunks)) := by
  induction chunks generalizing i with
  | nil => exact yields_pure
  | cons chunk chunks ih =>
    unfold extractFrom Analyzer.extractAll
    rw [passed_bind]
    refine yields_checkCancel (yields_op (fun _ _ => rfl) (yields_bind yields_orFail fun found => ?_))
    rw [passed_bind]
    exact yields_unit (yields_bind (ih (i + 1)) fun rest => yields_pure)

theorem yields_analyze :
    Yields ai decided jobId (Orchestrator.analyze jobId prepared context) (passed (ai.analyze prepared context)) := by
  unfold Orchestrator.analyze Analyzer.analyze
  dsimp only
  by_cases hn : prepared.chunks = []
  · -- the text of the empty analysis is not blank, so it passes the check that only one driver makes
    rw [if_pos (by simp [hn]), if_pos (by simp [hn])]
    exact yields_bind yields_validateStage fun _ => yields_pure
  · rw [if_neg (by simpa using hn), if_neg (by simpa using hn), passed_bind]
    refine yields_unit (yields_unit (yields_bind (yields_extractFrom _ 0 _) fun findings => ?_))
    rw [passed_bind]
    refine yields_unit (yields_checkCancel (yields_unit (yields_unit ?_)))
    refine yields_op (fun _ _ => rfl) (yields_bind yields_orFail fun ir => ?_)
    rw [passed_bind]
    exact yields_unit (yields_checkCancel (yields_bind yields_validateStage fun _ => yields_pure))

end Drivers

/-- **The two drivers agree**: whatever the analyzer answers and whatever else is decided, as long as the flag is
down both give the same representation, or fail with the same error. -/
theorem drivers_agree (ai : Analyzer) (decided : Decided) (w : World) (n : ℕ) (jobId : JobId)
    (prepared : PreparedTranscript) (context : AnalysisContext) (hcalm : w.jobs.isCancelled jobId = false) :
    (exec (ai.handler decided) (Orchestrator.analyze jobId prepared context) (w, n)).1 =
      passed (ai.analyze prepared context) :=
  (yields_analyze (w, n) hcalm).1

/-- Nothing fails. -/
def calmly : Decided := fun _ _ o =>
  match o with
  | .updateJob _ _ => true
  | .getJob _ | .isCancelled _ | .send _ => ()
  | .newMeeting => ([], 0)
  | .saveMeeting _ | .getMeeting _ | .saveTranscript _ _ | .getTranscript _ | .saveMeetingIr _ _
  | .saveMom _ _ | .saveProcessingStatus _ _ => none
  | .extractAudio _ _ _ => .error (.failed [])
  | .transcribe _ => .error (.failed [])
  | .extractChunk _ _ => .ok {}
  | .synthesize _ _ _ => .ok {}

/-- An analyzer that fails at the second chunk. -/
def stumbling : Analyzer where
  extractChunk chunk _ := if chunk.index = 0 then .ok {} else .error (.parse ['p'])
  synthesize _ _ _ := .ok { summary := ['s'] }

/-- Two segments, each a chunk of its own. -/
def twoChunks : PreparedTranscript :=
  prepare ⟨[{ start := .num 0, «end» := .num 1, text := ['a'] }, { start := .num 1, «end» := .num 2, text := ['b'] }]⟩
    { maxChars := 1 }

theorem stumbling_agree :
    (exec (stumbling.handler calmly) (Orchestrator.analyze ['j'] twoChunks {}) ({}, 0)).1 =
      .error (.ai (.parse ['p'])) := by
  rw [drivers_agree stumbling calmly {} 0 ['j'] twoChunks {} rfl]
  rfl

end Notely.Engine.AnalysisDrivers
