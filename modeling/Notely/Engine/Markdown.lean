import Notely.Engine.Chunker
import Notely.Engine.Domain

/-! # The rendered minutes

`renderer/markdown.rs`: the representation of a meeting as a Markdown document, by templates only. -/

namespace Notely.Engine.Markdown

open Notely.Lib.Strings Notely.Engine.Domain
open Notely.Engine.Chunker (trim)

/-- `writeln!`. -/
def writeln (s : Text) : Text := s ++ ['\n']

/-- `status_label`. -/
def statusLabel : ActionStatus → Text
  | .open => "open".toList
  | .inProgress => "in progress".toList
  | .done => "done".toList
  | .cancelled => "cancelled".toList

/-- `cell`. -/
def cell (s : Text) : Text := replaceAll ['|'] "\\|".toList (replaceAll ['\n'] [' '] (trim s))

/-- `write_evidence_quotes`. -/
def evidenceQuotes (evidence : List Evidence) : Text :=
  (evidence.filter fun e => ! (trim e.quote).isEmpty).flatMap fun e =>
    writeln ("> ".toList ++ trim e.quote ++ ['\n'])

/-- `write_evidence_inline`. -/
def evidenceInline (evidence : List Evidence) : Text :=
  (evidence.filter fun e => ! (trim e.quote).isEmpty).flatMap fun e =>
    writeln ("  - _evidence:_ \"".toList ++ trim e.quote ++ ['"'])

/-- A section: its heading, then the text for a section without items, or its body. -/
def renderSection {α : Type} (heading none : String) (items : List α) (body : Text) : Text :=
  writeln ("## ".toList ++ heading.toList ++ ['\n']) ++
    if items.isEmpty then writeln (none.toList ++ ['\n']) else body

/-- A text that is there and not blank. -/
def given (s : Option Text) : Option Text := s.bind fun s => if (trim s).isEmpty then none else some (trim s)

def participantLine (p : Participant) : Text :=
  match p.displayName with
  | some name => writeln ("- ".toList ++ name ++ " (`".toList ++ p.id ++ "`)".toList)
  | none => writeln ("- `".toList ++ p.id ++ ['`'])

def topicLines (t : Topic) : Text :=
  writeln ("### ".toList ++ trim t.title ++ ['\n']) ++
    (match given t.summary with
      | some s => writeln (s ++ ['\n'])
      | none => []) ++
    evidenceQuotes t.evidence

def decisionLines (d : Decision) : Text :=
  writeln ("- **".toList ++ trim d.decision ++ "**".toList) ++
    (match given d.context with
      | some ctx => writeln ("  - Context: ".toList ++ ctx)
      | none => []) ++
    evidenceInline d.evidence

def actionRow (a : ActionItem) : Text :=
  writeln ("| ".toList ++ cell a.description ++ " | ".toList ++ cell (a.owner.getD "—".toList) ++
    " | ".toList ++ cell (a.deadline.getD "—".toList) ++ " | ".toList ++ statusLabel a.status ++ " |".toList)

def questionLines (q : OpenQuestion) : Text :=
  writeln ("- ".toList ++ trim q.question) ++ evidenceInline q.evidence

def riskLines (r : Risk) : Text :=
  (match given r.severity with
    | some sev => writeln ("- **[".toList ++ sev ++ "]** ".toList ++ trim r.description)
    | none => writeln ("- ".toList ++ trim r.description)) ++
    evidenceInline r.evidence

/-- `render_with_title`. -/
def renderWithTitle (ir : MeetingIr) (title : Text) : Text :=
  let out :=
    writeln ("# ".toList ++ title ++ ['\n']) ++
      writeln ("## Summary".toList ++ ['\n']) ++
      (if (trim ir.summary).isEmpty then writeln ("_No summary._".toList ++ ['\n'])
        else writeln (trim ir.summary ++ ['\n'])) ++
      renderSection "Participants" "_None identified._" ir.participants
        (ir.participants.flatMap participantLine ++ ['\n']) ++
      renderSection "Topics" "_None._" ir.topics (ir.topics.flatMap topicLines) ++
      renderSection "Decisions" "_None recorded._" ir.decisions
        (ir.decisions.flatMap decisionLines ++ ['\n']) ++
      renderSection "Action Items" "_None._" ir.actionItems
        (writeln "| Action | Owner | Deadline | Status |".toList ++
          writeln "|--------|-------|----------|--------|".toList ++
          ir.actionItems.flatMap actionRow ++ ['\n']) ++
      renderSection "Open Questions" "_None._" ir.openQuestions
        (ir.openQuestions.flatMap questionLines ++ ['\n']) ++
      renderSection "Risks" "_None._" ir.risks (ir.risks.flatMap riskLines ++ ['\n'])
  trimEndBy (· == '\n') out ++ ['\n']

end Notely.Engine.Markdown
