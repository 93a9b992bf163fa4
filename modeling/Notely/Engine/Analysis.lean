import Notely.Engine.Preprocess

/-! # The analysis boundary

`ai/`. What the two passes of the analysis exchange, their errors, and the deterministic check of the
representation they produce (`validate`). -/

namespace Notely.Engine.Analysis

open Notely.Lib.Strings Notely.Engine.Domain
open Notely.Engine.Chunker (trim)

/-- `AnalysisContext`. -/
structure AnalysisContext where
  title : Option Text := none
  deriving DecidableEq

/-- `ChunkFindings`. -/
structure ChunkFindings where
  chunkId : Text := []
  topics : List Topic := []
  decisions : List Decision := []
  actionItems : List ActionItem := []
  openQuestions : List OpenQuestion := []
  risks : List Risk := []
  deriving DecidableEq

/-- `LlmError`. -/
inductive LlmError
  | transport (detail : Text)
  | runtime (detail : Text)
  | decode (detail : Text)
  | unsupported (detail : Text)
  deriving DecidableEq

/-- The text of an `LlmError`. -/
def LlmError.toText : LlmError → Text
  | .transport d => "failed to reach the LLM runtime: ".toList ++ d
  | .runtime d => "the LLM runtime returned an error: ".toList ++ d
  | .decode d => "could not decode the LLM runtime response: ".toList ++ d
  | .unsupported d => "the LLM runtime does not support this capability: ".toList ++ d

/-- `AiError`. -/
inductive AiError
  | llm (error : LlmError)
  | parse (detail : Text)
  | validation (detail : Text)
  deriving DecidableEq

/-- The text of an `AiError`. -/
def AiError.toText : AiError → Text
  | .llm e => "LLM error: ".toList ++ e.toText
  | .parse d => "could not parse structured output from model: ".toList ++ d
  | .validation d => "Meeting IR failed validation: ".toList ++ d

/-! ### Validation -/

/-- One problem for each item whose text is blank: `{list}[{i}].{field} must not be empty`. -/
def blanks {α : Type} (list field : String) (text : α → Text) (items : List α) : List Text :=
  (items.zipIdx.filter fun (item, _) => (trim (text item)).isEmpty).map fun (_, i) =>
    list.toList ++ "[".toList ++ Nat.toDigits 10 i ++ "].".toList ++ field.toList ++
      " must not be empty".toList

/-- `validate`: every problem found. -/
def validate (ir : MeetingIr) : Except (List Text) Unit :=
  let errors :=
    (if (trim ir.summary).isEmpty then ["summary must not be empty".toList] else []) ++
      blanks "decisions" "decision" Decision.decision ir.decisions ++
      blanks "action_items" "description" ActionItem.description ir.actionItems ++
      blanks "topics" "title" Topic.title ir.topics ++
      blanks "open_questions" "question" OpenQuestion.question ir.openQuestions ++
      blanks "risks" "description" Risk.description ir.risks
  if errors = [] then .ok () else .error errors

end Notely.Engine.Analysis
