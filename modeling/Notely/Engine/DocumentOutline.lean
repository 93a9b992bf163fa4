import Notely.Engine.Markdown
import Notely.Lib.Commonmark

/-! # The headings of the rendered minutes

The headings of the first two levels are those of the template, as long as no text of the meeting brings one of its own.

* `Plain`: no text that the template takes in starts a line with such a marker. Most stand behind something on their
  first line; the two summaries do not.
* `outline_iff`: the document has exactly the title and the seven sections when and only when the texts are plain. -/

namespace Notely.Engine.DocumentOutline

open Notely.Lib.Strings Notely.Lib.Commonmark Notely.Engine.Domain Notely.Engine.Markdown
open Notely.Engine.Chunker (trim)

/-- The headings of the template: the line of the title, and the sections. -/
def outline (title : Text) : List Text :=
  firstLine ("# ".toList ++ title) :: ["## Summary".toList, "## Participants".toList, "## Topics".toList,
    "## Decisions".toList, "## Action Items".toList, "## Open Questions".toList, "## Risks".toList]

/-- A text with a line of its own. -/
def Own (s : Text) : Prop := marked s = false ∧ opens s = false

/-- A text behind something else on its line. -/
def Behind (s : Text) : Prop := opens s = false

/-- A text behind something else on its line, with a blank behind it. -/
def Between (s : Text) : Prop := opens (s ++ [' ']) = false

def PlainQuotes (evidence : List Evidence) : Prop := ∀ e ∈ evidence, Behind (trim e.quote)

def PlainParticipant (p : Participant) : Prop := (∀ name ∈ p.displayName, Between name) ∧ Behind p.id

def PlainTopic (t : Topic) : Prop :=
  Behind (trim t.title) ∧ (∀ s ∈ given t.summary, Own s) ∧ PlainQuotes t.evidence

def PlainDecision (d : Decision) : Prop :=
  Behind (trim d.decision) ∧ (∀ s ∈ given d.context, Behind s) ∧ PlainQuotes d.evidence

def PlainAction (a : ActionItem) : Prop :=
  Between (cell a.description) ∧ Between (cell (a.owner.getD "—".toList)) ∧ Between (cell (a.deadline.getD "—".toList))

def PlainQuestion (q : OpenQuestion) : Prop := Behind (trim q.question) ∧ PlainQuotes q.evidence

def PlainRisk (r : Risk) : Prop :=
  (∀ s ∈ given r.severity, Behind s) ∧ Behind (trim r.description) ∧ PlainQuotes r.evidence

/-- **No text brings a heading into the document.** -/
structure Plain (ir : MeetingIr) (title : Text) : Prop where
  title : Behind title
  summary : Own (trim ir.summary)
  participants : ∀ p ∈ ir.participants, PlainParticipant p
  topics : ∀ t ∈ ir.topics, PlainTopic t
  decisions : ∀ d ∈ ir.decisions, PlainDecision d
  actionItems : ∀ a ∈ ir.actionItems, PlainAction a
  openQuestions : ∀ q ∈ ir.openQuestions, PlainQuestion q
  risks : ∀ r ∈ ir.risks, PlainRisk r

/-! ### The lines of the template -/

section Items
variable {w s : Text} {c : Char}

theorem whole_writeln (s : Text) : Whole (writeln s) := Or.inr ⟨s, rfl⟩

theorem opens_behind (h : Unbroken w) : opens (w ++ s) = opens s := by
  induction w with
  | nil => rfl
  | cons c w ih =>
    rw [List.cons_append, opens_cons (h c List.mem_cons_self), ih fun d hd => h d (List.mem_cons_of_mem _ hd)]

/-- What stands behind something that is no marker opens what it opens alone. -/
theorem headings_behind (h : Unbroken w) (hw : ∀ s, marked (w ++ s) = false) :
    headings (writeln (w ++ s)) = [] ↔ opens s = false := by
  rw [writeln, headings_writeln_eq_nil, opens_behind h, hw, eq_self_iff_true, true_and]

/-- A text ends at a character that is neither a number sign nor a blank. -/
theorem opens_append_of_ne {t : Text} (hmark : c ≠ '#') (hblank : c ≠ ' ') (hend : lineEnd c = false) :
    opens (s ++ c :: t) = (opens s || opens t) := by
  rw [opens_append hmark, opens_snoc hmark hblank, opens_cons hend]

theorem opens_append_blank {t : Text} : opens (s ++ ' ' :: t) = (opens (s ++ [' ']) || opens t) := by
  rw [opens_append (by decide), opens_cons (by decide)]

theorem opens_of_trim_eq_nil {s : Text} (h : (trim s).isEmpty = true) : opens (trim s) = false := by
  rw [List.isEmpty_iff.mp h]
  rfl

section Evidence
variable (evidence : List Evidence)

theorem whole_evidenceInline : Whole (evidenceInline evidence) := Whole.flatMap fun _ _ => whole_writeln _

theorem whole_evidenceQuotes : Whole (evidenceQuotes evidence) := Whole.flatMap fun _ _ => whole_writeln _

/-- The quotes that are written, or all of them: an empty one opens nothing. -/
theorem plainQuotes_iff :
    (∀ e ∈ evidence.filter fun e => ! (trim e.quote).isEmpty, Behind (trim e.quote)) ↔ PlainQuotes evidence := by
  constructor
  · intro h e he
    by_cases hempty : (trim e.quote).isEmpty = true
    · exact opens_of_trim_eq_nil hempty
    · exact h e (List.mem_filter.mpr ⟨he, by simpa using hempty⟩)
  · exact fun h e he => h e (List.mem_filter.mp he).1

theorem headings_evidenceInline : headings (evidenceInline evidence) = [] ↔ PlainQuotes evidence := by
  rw [evidenceInline, headings_flatMap_eq_nil fun _ _ => whole_writeln _, ← plainQuotes_iff]
  refine forall₂_congr fun e _ => ?_
  rw [List.append_assoc, headings_behind (by decide) fun _ => marked_cons_of_ne (by decide),
    opens_snoc (by decide) (by decide)]
  rfl

theorem headings_evidenceQuotes : headings (evidenceQuotes evidence) = [] ↔ PlainQuotes evidence := by
  rw [evidenceQuotes, headings_flatMap_eq_nil fun _ _ => whole_writeln _, ← plainQuotes_iff]
  refine forall₂_congr fun e _ => ?_
  rw [List.append_assoc, headings_behind (by decide) fun _ => marked_cons_of_ne (by decide),
    opens_snoc (by decide) (by decide)]
  rfl

end Evidence

theorem headings_participantLine (p : Participant) : headings (participantLine p) = [] ↔ PlainParticipant p := by
  unfold participantLine PlainParticipant
  cases p.displayName with
  | none =>
    show headings (writeln ("- `".toList ++ p.id ++ ['`'])) = [] ↔ _
    rw [List.append_assoc, headings_behind (by decide) fun _ => marked_cons_of_ne (by decide),
      opens_snoc (by decide) (by decide)]
    simp [Behind]
  | some name =>
    have hline : "- ".toList ++ name ++ " (`".toList ++ p.id ++ "`)".toList =
        "- ".toList ++ (name ++ ' ' :: ("(`".toList ++ (p.id ++ '`' :: [')']))) := by
      simp only [List.append_assoc]
      rfl
    have hid : opens (p.id ++ '`' :: [')']) = opens p.id := by
      rw [opens_append_of_ne (by decide) (by decide) (by decide)]
      exact Bool.or_false _
    show headings (writeln ("- ".toList ++ name ++ " (`".toList ++ p.id ++ "`)".toList)) = [] ↔ _
    rw [hline, headings_behind (by decide) fun _ => marked_cons_of_ne (by decide), opens_append_blank,
      opens_behind (w := "(`".toList) (by decide), hid]
    simp [Behind, Between]

theorem headings_topicLines (t : Topic) : headings (topicLines t) = [] ↔ PlainTopic t := by
  have htitle : headings (writeln ("### ".toList ++ trim t.title ++ ['\n'])) = [] ↔ Behind (trim t.title) := by
    rw [List.append_assoc, headings_behind (by decide) fun _ => rfl, opens_snoc (by decide) (by decide)]
    rfl
  unfold topicLines PlainTopic
  cases given t.summary with
  | none =>
    show headings (writeln ("### ".toList ++ trim t.title ++ ['\n']) ++ [] ++ evidenceQuotes t.evidence) = [] ↔ _
    rw [List.append_nil, (whole_writeln _).headings_append, List.append_eq_nil_iff, htitle, headings_evidenceQuotes]
    simp
  | some s =>
    have hs : headings (writeln (s ++ ['\n'])) = [] ↔ Own s := by
      rw [writeln, headings_writeln_eq_nil, marked_snoc (by decide) (by decide), opens_snoc (by decide) (by decide)]
      rfl
    show headings (writeln ("### ".toList ++ trim t.title ++ ['\n']) ++ writeln (s ++ ['\n']) ++
      evidenceQuotes t.evidence) = [] ↔ _
    rw [((whole_writeln _).append (whole_writeln _)).headings_append, (whole_writeln _).headings_append,
      List.append_eq_nil_iff, List.append_eq_nil_iff, htitle, hs, headings_evidenceQuotes]
    simp [and_assoc]

theorem headings_decisionLines (d : Decision) : headings (decisionLines d) = [] ↔ PlainDecision d := by
  have hdecision : headings (writeln ("- **".toList ++ trim d.decision ++ "**".toList)) = [] ↔
      Behind (trim d.decision) := by
    have hline : opens (trim d.decision ++ '*' :: ['*']) = opens (trim d.decision) := by
      rw [opens_append_of_ne (by decide) (by decide) (by decide)]
      exact Bool.or_false _
    rw [List.append_assoc, headings_behind (by decide) fun _ => marked_cons_of_ne (by decide)]
    exact Eq.congr_left hline
  unfold decisionLines PlainDecision
  cases given d.context with
  | none =>
    show headings (writeln ("- **".toList ++ trim d.decision ++ "**".toList) ++ [] ++
      evidenceInline d.evidence) = [] ↔ _
    rw [List.append_nil, (whole_writeln _).headings_append, List.append_eq_nil_iff, hdecision, headings_evidenceInline]
    simp
  | some ctx =>
    show headings (writeln ("- **".toList ++ trim d.decision ++ "**".toList) ++
      writeln ("  - Context: ".toList ++ ctx) ++ evidenceInline d.evidence) = [] ↔ _
    rw [((whole_writeln _).append (whole_writeln _)).headings_append, (whole_writeln _).headings_append,
      List.append_eq_nil_iff, List.append_eq_nil_iff, hdecision,
      headings_behind (by decide) fun _ => marked_cons_of_ne (by decide), headings_evidenceInline]
    simp [Behind, and_assoc]

theorem headings_questionLines (q : OpenQuestion) : headings (questionLines q) = [] ↔ PlainQuestion q := by
  unfold questionLines PlainQuestion
  rw [(whole_writeln _).headings_append, List.append_eq_nil_iff,
    headings_behind (by decide) fun _ => marked_cons_of_ne (by decide), headings_evidenceInline]
  rfl

theorem headings_riskLines (r : Risk) : headings (riskLines r) = [] ↔ PlainRisk r := by
  unfold riskLines PlainRisk
  cases given r.severity with
  | none =>
    show headings (writeln ("- ".toList ++ trim r.description) ++ evidenceInline r.evidence) = [] ↔ _
    rw [(whole_writeln _).headings_append, List.append_eq_nil_iff,
      headings_behind (by decide) fun _ => marked_cons_of_ne (by decide), headings_evidenceInline]
    simp [Behind]
  | some sev =>
    have hline : "- **[".toList ++ sev ++ "]** ".toList ++ trim r.description =
        "- **[".toList ++ (sev ++ ']' :: ("** ".toList ++ trim r.description)) := by
      simp only [List.append_assoc]
      rfl
    show headings (writeln ("- **[".toList ++ sev ++ "]** ".toList ++ trim r.description) ++
      evidenceInline r.evidence) = [] ↔ _
    rw [(whole_writeln _).headings_append, List.append_eq_nil_iff, hline,
      headings_behind (by decide) fun _ => marked_cons_of_ne (by decide),
      opens_append_of_ne (by decide) (by decide) (by decide), opens_behind (w := "** ".toList) (by decide),
      headings_evidenceInline]
    simp [Behind, and_assoc]

theorem headings_actionRow (a : ActionItem) : headings (actionRow a) = [] ↔ PlainAction a := by
  have hstatus : opens (statusLabel a.status ++ " |".toList) = false := by
    cases a.status <;> decide
  unfold PlainAction
  have hcell (s t : Text) : opens (s ++ ' ' :: ("| ".toList ++ t)) = (opens (s ++ [' ']) || opens t) := by
    rw [opens_append_blank, opens_behind (w := "| ".toList) (by decide)]
  have hline : actionRow a = writeln ("| ".toList ++ (cell a.description ++ ' ' :: ("| ".toList ++
      (cell (a.owner.getD "—".toList) ++ ' ' :: ("| ".toList ++ (cell (a.deadline.getD "—".toList) ++
      ' ' :: ("| ".toList ++ (statusLabel a.status ++ " |".toList)))))))) := by
    unfold actionRow
    simp only [List.append_assoc]
    rfl
  rw [hline, headings_behind (by decide) fun _ => marked_cons_of_ne (by decide), hcell, hcell, hcell, hstatus]
  simp [Between]

end Items

/-! ### The sections -/

section Sections
variable {α : Type} {heading none : String} {items : List α} {body : Text}

/-- A heading of the template, and the empty line after it. -/
theorem headings_heading {l : Text} (hmark : marked l = true) (h : Unbroken l) :
    headings (writeln (l ++ ['\n'])) = [l] := by
  rw [writeln, List.append_assoc, List.singleton_append, headings_append, headings_line hmark h]
  rfl

theorem whole_renderSection (h : Whole body) : Whole (renderSection heading none items body) := by
  unfold renderSection
  split_ifs
  · exact (whole_writeln _).append (whole_writeln _)
  · exact (whole_writeln _).append h

/-- A part of the document: its heading in the template, what its texts must be for it to have no other, and itself. -/
structure Part where
  line : Text
  plain : Prop
  text : Text

/-- The part has its heading first, and after it those that its texts bring. -/
def Part.Brings (p : Part) : Prop :=
  Whole p.text ∧ ∃ hs, (hs = [] ↔ p.plain) ∧ headings p.text = p.line :: hs

/-- **A section has its own heading, and those of its items.** -/
theorem brings_renderSection {P : α → Prop} (hheading : Unbroken heading.toList)
    (hnone : headings (writeln (none.toList ++ ['\n'])) = []) (hwhole : Whole body)
    (hbody : headings body = [] ↔ ∀ x ∈ items, P x) :
    Part.Brings ⟨"## ".toList ++ heading.toList, ∀ x ∈ items, P x, renderSection heading none items body⟩ := by
  have hmark : Unbroken "## ".toList := by decide
  have hline : Unbroken ("## ".toList ++ heading.toList) := by
    intro c hc
    rcases List.mem_append.mp hc with hc | hc
    · exact hmark c hc
    · exact hheading c hc
  refine ⟨whole_renderSection hwhole, ?_⟩
  show ∃ hs, (hs = [] ↔ ∀ x ∈ items, P x) ∧
    headings (renderSection heading none items body) = ("## ".toList ++ heading.toList) :: hs
  unfold renderSection
  rw [(whole_writeln _).headings_append, headings_heading (by rfl) hline]
  split_ifs with hempty
  · refine ⟨[], ?_, by rw [hnone]; rfl⟩
    rw [List.isEmpty_iff.mp hempty]
    simp
  · exact ⟨headings body, hbody, rfl⟩

/-- The parts that bring no heading, one after the other. -/
theorem headings_parts {parts : List Part} (h : ∀ p ∈ parts, p.Brings) :
    headings (parts.flatMap Part.text) = parts.map Part.line ↔ ∀ p ∈ parts, p.plain := by
  -- more headings than parts, unless no part brings any
  have hlen (parts : List Part) (h : ∀ p ∈ parts, p.Brings) :
      parts.length ≤ (headings (parts.flatMap Part.text)).length := by
    induction parts with
    | nil => exact Nat.zero_le _
    | cons p parts ih =>
      obtain ⟨hwhole, hs, -, heq⟩ := h p List.mem_cons_self
      have hrest := ih fun q hq => h q (List.mem_cons_of_mem _ hq)
      rw [List.flatMap_cons, hwhole.headings_append, heq]
      simp only [List.length_append, List.length_cons]
      omega
  induction parts with
  | nil => simp [headings, lines]
  | cons p parts ih =>
    obtain ⟨hwhole, hs, hnil, heq⟩ := h p List.mem_cons_self
    have hrest : ∀ q ∈ parts, q.Brings := fun q hq => h q (List.mem_cons_of_mem _ hq)
    have hiff := ih hrest
    rw [List.flatMap_cons, hwhole.headings_append, heq, List.map_cons, List.cons_append, List.cons.injEq,
      eq_self_iff_true, true_and, List.forall_mem_cons, ← hnil]
    constructor
    · intro hall
      have hle := hlen parts hrest
      have hcount := congrArg List.length hall
      rw [List.length_append, List.length_map] at hcount
      have hs : hs = [] := List.eq_nil_of_length_eq_zero (by omega)
      rw [hs] at hall
      exact ⟨hs, hiff.mp hall⟩
    · rintro ⟨rfl, hall⟩
      exact hiff.mpr hall

/-- The items of a section, with the empty line after them. -/
theorem headings_items {P : α → Prop} {f : α → Text} (hwhole : ∀ x ∈ items, Whole (f x))
    (hf : ∀ x, headings (f x) = [] ↔ P x) : headings (items.flatMap f ++ ['\n']) = [] ↔ ∀ x ∈ items, P x := by
  have hblank : headings ['\n'] = [] := by decide
  rw [(Whole.flatMap hwhole).headings_append, hblank, List.append_nil, headings_flatMap_eq_nil hwhole]
  exact forall₂_congr fun x _ => hf x

end Sections

section Document
variable (ir : MeetingIr) (title : Text)

theorem whole_topicLines (t : Topic) : Whole (topicLines t) := by
  unfold topicLines
  cases given t.summary with
  | none => exact ((whole_writeln _).append (Or.inl rfl)).append (whole_evidenceQuotes _)
  | some s => exact ((whole_writeln _).append (whole_writeln _)).append (whole_evidenceQuotes _)

theorem whole_decisionLines (d : Decision) : Whole (decisionLines d) := by
  unfold decisionLines
  cases given d.context with
  | none => exact ((whole_writeln _).append (Or.inl rfl)).append (whole_evidenceInline _)
  | some s => exact ((whole_writeln _).append (whole_writeln _)).append (whole_evidenceInline _)

theorem whole_questionLines (q : OpenQuestion) : Whole (questionLines q) :=
  (whole_writeln _).append (whole_evidenceInline _)

theorem whole_riskLines (r : Risk) : Whole (riskLines r) := by
  unfold riskLines
  cases given r.severity with
  | none => exact (whole_writeln _).append (whole_evidenceInline _)
  | some s => exact (whole_writeln _).append (whole_evidenceInline _)

theorem whole_participantLine (p : Participant) : Whole (participantLine p) := by
  unfold participantLine
  cases p.displayName with
  | none => exact whole_writeln _
  | some name => exact whole_writeln _

theorem brings_title : Part.Brings
    ⟨firstLine ("# ".toList ++ title), Behind title, writeln ("# ".toList ++ title ++ ['\n'])⟩ := by
  have hmark : marked ("# ".toList ++ title) = true := rfl
  obtain ⟨hs, hnil, heq⟩ := headings_writeln hmark
  have hblank : headings ['\n'] = [] := by decide
  refine ⟨whole_writeln _, hs, ?_, ?_⟩
  · rw [hnil, opens_behind (by decide)]
    rfl
  · rw [writeln, List.append_assoc, List.singleton_append, headings_append, heq, hblank, List.append_nil]

/-- The text of the summary, or of its absence. -/
def summaryText : Text :=
  if (trim ir.summary).isEmpty then writeln ("_No summary._".toList ++ ['\n']) else writeln (trim ir.summary ++ ['\n'])

theorem brings_summary : Part.Brings ⟨"## Summary".toList, Own (trim ir.summary),
    writeln ("## Summary".toList ++ ['\n']) ++ summaryText ir⟩ := by
  have hwhole : Whole (summaryText ir) := by
    unfold summaryText
    split_ifs
    · exact whole_writeln _
    · exact whole_writeln _
  refine ⟨(whole_writeln _).append hwhole, headings (summaryText ir), ?_, ?_⟩
  · unfold summaryText
    split_ifs with hempty
    · have hnone : headings (writeln ("_No summary._".toList ++ ['\n'])) = [] := by decide
      rw [hnone, List.isEmpty_iff.mp hempty]
      exact iff_of_true rfl ⟨rfl, rfl⟩
    · rw [writeln, headings_writeln_eq_nil, marked_snoc (by decide) (by decide), opens_snoc (by decide) (by decide)]
      rfl
  · show headings (writeln ("## Summary".toList ++ ['\n']) ++ summaryText ir) = _
    rw [(whole_writeln _).headings_append, headings_heading (by rfl) (by decide)]
    rfl

/-- The document in its parts. -/
def parts : List Part :=
  [⟨firstLine ("# ".toList ++ title), Behind title, writeln ("# ".toList ++ title ++ ['\n'])⟩,
    ⟨"## Summary".toList, Own (trim ir.summary), writeln ("## Summary".toList ++ ['\n']) ++ summaryText ir⟩,
    ⟨"## Participants".toList, ∀ p ∈ ir.participants, PlainParticipant p,
      renderSection "Participants" "_None identified._" ir.participants
        (ir.participants.flatMap participantLine ++ ['\n'])⟩,
    ⟨"## Topics".toList, ∀ t ∈ ir.topics, PlainTopic t,
      renderSection "Topics" "_None._" ir.topics (ir.topics.flatMap topicLines)⟩,
    ⟨"## Decisions".toList, ∀ d ∈ ir.decisions, PlainDecision d,
      renderSection "Decisions" "_None recorded._" ir.decisions (ir.decisions.flatMap decisionLines ++ ['\n'])⟩,
    ⟨"## Action Items".toList, ∀ a ∈ ir.actionItems, PlainAction a,
      renderSection "Action Items" "_None._" ir.actionItems (writeln "| Action | Owner | Deadline | Status |".toList ++
        writeln "|--------|-------|----------|--------|".toList ++ ir.actionItems.flatMap actionRow ++ ['\n'])⟩,
    ⟨"## Open Questions".toList, ∀ q ∈ ir.openQuestions, PlainQuestion q,
      renderSection "Open Questions" "_None._" ir.openQuestions (ir.openQuestions.flatMap questionLines ++ ['\n'])⟩,
    ⟨"## Risks".toList, ∀ r ∈ ir.risks, PlainRisk r,
      renderSection "Risks" "_None._" ir.risks (ir.risks.flatMap riskLines ++ ['\n'])⟩]

theorem brings_parts : ∀ p ∈ parts ir title, p.Brings := by
  have hfeed : Whole ['\n'] := Or.inr ⟨[], rfl⟩
  have htable : headings (writeln "| Action | Owner | Deadline | Status |".toList ++
      writeln "|--------|-------|----------|--------|".toList ++ ir.actionItems.flatMap actionRow ++ ['\n']) = [] ↔
      ∀ a ∈ ir.actionItems, PlainAction a := by
    have hlines : headings (writeln "| Action | Owner | Deadline | Status |".toList ++
        writeln "|--------|-------|----------|--------|".toList) = [] := by decide
    rw [List.append_assoc, ((whole_writeln _).append (whole_writeln _)).headings_append, hlines, List.nil_append]
    exact headings_items (fun a _ => whole_writeln _) headings_actionRow
  unfold parts
  simp only [List.forall_mem_cons, List.not_mem_nil, false_imp_iff, implies_true, and_true]
  refine ⟨brings_title title, brings_summary ir, ?_, ?_, ?_, ?_, ?_, ?_⟩
  · exact brings_renderSection (by decide) (by decide) ((Whole.flatMap fun p _ => whole_participantLine p).append hfeed)
      (headings_items (fun p _ => whole_participantLine p) headings_participantLine)
  · exact brings_renderSection (by decide) (by decide) (Whole.flatMap fun t _ => whole_topicLines t)
      ((headings_flatMap_eq_nil fun t _ => whole_topicLines t).trans (forall₂_congr fun t _ => headings_topicLines t))
  · exact brings_renderSection (by decide) (by decide) ((Whole.flatMap fun d _ => whole_decisionLines d).append hfeed)
      (headings_items (fun d _ => whole_decisionLines d) headings_decisionLines)
  · exact brings_renderSection (by decide) (by decide)
      ((((whole_writeln _).append (whole_writeln _)).append (Whole.flatMap fun a _ => whole_writeln _)).append hfeed)
      htable
  · exact brings_renderSection (by decide) (by decide) ((Whole.flatMap fun q _ => whole_questionLines q).append hfeed)
      (headings_items (fun q _ => whole_questionLines q) headings_questionLines)
  · exact brings_renderSection (by decide) (by decide) ((Whole.flatMap fun r _ => whole_riskLines r).append hfeed)
      (headings_items (fun r _ => whole_riskLines r) headings_riskLines)

theorem renderWithTitle_parts :
    renderWithTitle ir title = trimEndBy (· == '\n') ((parts ir title).flatMap Part.text) ++ ['\n'] := by
  unfold renderWithTitle parts summaryText
  simp only [List.flatMap_cons, List.flatMap_nil, List.append_nil, List.append_assoc]

/-- The document ends in a line feed. -/
theorem parts_feed : ∃ out, (parts ir title).flatMap Part.text = out ++ ['\n'] := by
  have hwhole : Whole ((parts ir title).flatMap Part.text) := Whole.flatMap fun p hp => (brings_parts ir title p hp).1
  rcases hwhole with hnil | hfeed
  · exact absurd hnil (List.cons_ne_nil _ _)
  · exact hfeed

theorem plain_iff : (∀ p ∈ parts ir title, p.plain) ↔ Plain ir title := by
  unfold parts
  simp only [List.forall_mem_cons, List.not_mem_nil, false_imp_iff, implies_true, and_true]
  constructor
  · rintro ⟨h₀, h₁, h₂, h₃, h₄, h₅, h₆, h₇⟩
    exact ⟨h₀, h₁, h₂, h₃, h₄, h₅, h₆, h₇⟩
  · rintro ⟨h₀, h₁, h₂, h₃, h₄, h₅, h₆, h₇⟩
    exact ⟨h₀, h₁, h₂, h₃, h₄, h₅, h₆, h₇⟩

theorem headings_iff_plain : headings (renderWithTitle ir title) = outline title ↔ Plain ir title := by
  obtain ⟨out, heq⟩ := parts_feed ir title
  have houtline : outline title = (parts ir title).map Part.line := rfl
  rw [renderWithTitle_parts, heq, headings_trimEnd, ← heq, houtline, headings_parts (brings_parts ir title), plain_iff]

/-- **The document has the headings of its template, and no other, exactly when its texts are plain.** -/
theorem outline_iff (ir : MeetingIr) (title : Text) :
    headings (renderWithTitle ir title) = outline title ↔ Plain ir title :=
  headings_iff_plain ir title

/-- A summary of several paragraphs, one of which starts like a section. -/
theorem not_outline_injected :
    ¬ ∀ (ir : MeetingIr) (title : Text), headings (renderWithTitle ir title) = outline title := by
  intro h
  have hplain := (headings_iff_plain { summary := "We shipped.\n## Risks\nNone left.".toList } "Meeting".toList).mp
    (h _ _)
  exact absurd hplain.summary.2 (by decide)

end Document

end Notely.Engine.DocumentOutline
